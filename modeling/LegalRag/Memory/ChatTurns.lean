import LegalRag.Memory.Views

/-!
# A chat request is a turn

What a request without faults does to a conversation, in terms of `LogCache`: nothing if the conversation
is not the user's (`chatStream_spec_of_not_owns`), and else a turn, answered or not (`chatStream_spec`).
Both say it of the world at the end and of the worlds right after the appends to the buffer.
-/

namespace LegalRag

open Calls Redis

variable {convId : Uuid} {w : ApiWorld} {st : LogCache.State ChatMessage}

/-! ### The appends of a program -/

/-- The call is the pipeline of an append. -/
def isAppend : ApiOp → Bool
  | .pipeline (.rpush _ _ :: _) => true
  | _ => false

/-- The worlds right after each append that a program makes. -/
def appendWorlds {α : Type} (h : Handler ApiCalls ApiErr ApiWorld) (p : Api α) (w : ApiWorld) :
    List ApiWorld :=
  p.seen (fun o v => if isAppend o then some v else none) h w

private theorem isAppend_of_quiet {o : ApiOp} (ho : Quiet o) : isAppend o = false := by
  cases o with
  | pipeline cmds => exact ho.elim
  | _ => rfl

private theorem appendWorlds_of_quiet (rid : Nat) (agent : AgentReplies) {α : Type} {p : Api α}
    (hp : p.Only Quiet) (w : ApiWorld) : appendWorlds (apiHandler rid agent) p w = [] :=
  Prog.seen_of_only (fun o _ ho => by simp [isAppend_of_quiet ho]) hp _ w

private theorem appendWorlds_handle (rid : Nat) (agent : AgentReplies) {α : Type} {p : Api α}
    {k : ApiErr → Api α} (hk : ∀ e, (k e).Only Quiet) (w : ApiWorld) :
    appendWorlds (apiHandler rid agent) (p.handle k) w = appendWorlds (apiHandler rid agent) p w :=
  Prog.seen_handle_of_only (fun o _ ho => by simp [isAppend_of_quiet ho]) hk _ p w

private theorem appendWorlds_call {α : Type} (h : Handler ApiCalls ApiErr ApiWorld) (o : ApiOp)
    (k : Except ApiErr (ApiCalls.Resp o) → Api α) (w : ApiWorld) :
    appendWorlds h (.call o k) w =
      (if isAppend o then [(h o w).2] else []) ++ appendWorlds h (k (h o w).1) (h o w).2 := by
  rw [appendWorlds, Prog.seen_call]
  cases isAppend o <;> rfl

private theorem appendWorlds_bind {α β : Type} (h : Handler ApiCalls ApiErr ApiWorld) (p : Api α)
    (f : α → Api β) (w : ApiWorld) :
    appendWorlds h (p >>= f) w =
      appendWorlds h p w ++ appendWorlds h (Prog.cont f (p.exec h w).1) (p.exec h w).2 :=
      Prog.seen_bind _ h p f w

/-! ### The parts of a turn -/

section Turn

variable (rid : Nat) (agent : AgentReplies) (s : BufferSettings) {c : ChatCall}

private theorem quiet_onAgentEvent (evt : AgentEvent) (st : GenState) : (onAgentEvent evt st).Only Quiet := by
  cases evt <;> first | trivial | exact Prog.only_bind (Prog.only_perform trivial) fun _ => trivial

private theorem ensureBuffer_eq (s : BufferSettings) (convId : Uuid) :
    ensureBuffer s convId = .call (.lrange (bufKey convId) 0 (-1)) (Prog.cont fun buf : List ChatMessage =>
      if buf.isEmpty then
        .call (.recentMessages .request convId 20) (Prog.cont fun msgs : List Message =>
          warmupFromDb s convId (msgs.map (·.toChat)))
      else .done (.ok ())) := rfl

/-- The calls of `ensureBuffer`. -/
theorem ensureBuffer_only {P : ApiOp → Prop} (hread : P (.lrange (bufKey convId) 0 (-1)))
    (hrecent : P (.recentMessages .request convId 20))
    (hwarm : ∀ ms, P (.pipeline (warmupCmds s convId ms))) : (ensureBuffer s convId).Only P := by
  refine Prog.only_bind (Prog.only_perform hread) fun buf => ?_
  split
  · refine Prog.only_bind (Prog.only_perform hrecent) fun msgs => ?_
    unfold warmupFromDb
    split
    · exact Prog.only_done _
    · exact Prog.only_perform (hwarm _)
  · exact Prog.only_done _

/-- The buffer is made warm. -/
private theorem ensureBuffer_spec (h : Views convId w st) (hs : (w.sessions rid .request).newMessages = []) :
    ((ensureBuffer s convId).exec (apiHandler rid agent) w).1 = .ok () ∧
    Views convId ((ensureBuffer s convId).exec (apiHandler rid agent) w).2
      (LogCache.warm s.shortTermBufferSize 20 st) ∧
    ((ensureBuffer s convId).exec (apiHandler rid agent) w).2.sessions rid .scope =
    w.sessions rid .scope ∧ appendWorlds (apiHandler rid agent) (ensureBuffer s convId) w = [] := by
  have hread : (apiHandler rid agent (.lrange (bufKey convId) 0 (-1)) w).1 = .ok st.buf :=
    congrArg Except.ok h.bufferOf_eq
  have hv : Views convId (apiHandler rid agent (.lrange (bufKey convId) 0 (-1)) w).2 st :=
    h.of_frame rfl rfl (Nat.le_succ _)
  have hnone : appendWorlds (apiHandler rid agent) (ensureBuffer s convId) w = [] :=
    Prog.seen_of_only (P := fun o => isAppend o = false) (fun o _ ho => by simp [ho])
      (ensureBuffer_only s rfl rfl fun _ => rfl) _ w
  rw [ensureBuffer_eq] at hnone ⊢
  simp only [Prog.exec_call, hread, Prog.cont_ok]
  cases hb : st.buf with
  | cons m ms =>
    exact ⟨rfl, by simpa [LogCache.warm, hb] using hv, rfl, hnone⟩
  | nil =>
    obtain ⟨msgs, hreply, hmsgs⟩ : ∃ msgs : List Message,
      (apiHandler rid agent (.recentMessages .request convId 20)
        (apiHandler rid agent (.lrange (bufKey convId) 0 (-1)) w).2).1 = .ok msgs ∧
        msgs.map (·.toChat) = st.stored.rtake 20 := ⟨_, rfl, hv.recent hs 20⟩
    have hrecent : Views convId (apiHandler rid agent (.recentMessages .request convId 20)
        (apiHandler rid agent (.lrange (bufKey convId) 0 (-1)) w).2).2 st :=
      hv.of_frame rfl rfl (Nat.le_succ _)
    have hscope : (apiHandler rid agent (.recentMessages .request convId 20)
        (apiHandler rid agent (.lrange (bufKey convId) 0 (-1)) w).2).2.sessions rid .scope =
        w.sessions rid .scope := by
      simp [apiHandler, apiReply, ApiWorld.tick, ApiWorld.touch, ApiWorld.setSession]
    simp only [List.isEmpty_nil, if_true, Prog.exec_call, hreply,
      Prog.cont_ok, hmsgs, warmupFromDb, LogCache.warm, hb]
    split
    · rename_i he
      rw [List.isEmpty_iff] at he
      refine ⟨rfl, ?_, hscope, hnone⟩
      have hnil : lastUpTo s.shortTermBufferSize (st.stored.rtake 20) = [] := by
        simp [he, lastUpTo]
      rw [hnil, ← hb]
      exact hrecent
    · exact ⟨rfl, by rw [← hmsgs]; exact hrecent.warmup _ _ _ _, hscope, hnone⟩

theorem persistAnswer_eq (s : BufferSettings) (c : ChatCall) (u : Uuid) (g : GenState) :
    persistAnswer s c u g =
      .call (.addMessage .scope ⟨c.convId, .assistant, g.fullAnswer, g.citations,
        g.usage.map Usage.promptTokens, g.usage.map Usage.completionTokens⟩) (Prog.cont fun _ : Message =>
          .call (.commit .scope) (Prog.cont fun _ : Unit =>
            .call (.pipeline (appendCmds s c.convId ⟨.assistant, g.fullAnswer⟩)) (Prog.cont fun _ : Unit =>
              finishAnswer c u g))) := rfl

private theorem quiet_finishAnswer (c : ChatCall) (u : Uuid) (g : GenState) :
    (finishAnswer c u g).Only Quiet := by
  refine Prog.only_bind (Prog.only_handle ?_ fun _ => trivial) fun _ => Prog.only_perform trivial
  exact Prog.only_bind (Prog.only_perform trivial) fun _ => trivial

/-- Quiet calls leave what a world shows. -/
private theorem Views.exec_quiet (h : Views convId w st) {α : Type} {p : Api α} (hp : p.Only Quiet) :
    Views convId (p.exec (apiHandler rid agent) w).2 st :=
  h.of_frame_eq (Prog.exec_of_only (frame_quiet rid agent) hp w) (Prog.le_exec (clock_le rid agent) p w)

/-- An answer is stored and appended. -/
private theorem persistAnswer_spec (h : Views c.convId w st)
    (hs : w.sessions rid .scope = Session.fresh) (u : Uuid) (g : GenState) :
    Views c.convId ((persistAnswer s c u g).exec (apiHandler rid agent) w).2
      (LogCache.answer s.shortTermBufferSize ⟨.assistant, g.fullAnswer⟩ st) ∧
    ∃ v, appendWorlds (apiHandler rid agent) (persistAnswer s c u g) w = [v] ∧
      Views c.convId v (LogCache.answer s.shortTermBufferSize ⟨.assistant, g.fullAnswer⟩ st) := by
  rw [persistAnswer_eq]
  set m : NewMessage := ⟨c.convId, .assistant, g.fullAnswer, g.citations, g.usage.map Usage.promptTokens,
    g.usage.map Usage.completionTokens⟩ with hm
  have hnew : (w.sessions rid .scope).newMessages = [] := by rw [hs]; rfl
  have hdocs : (w.sessions rid .scope).newDocuments = [] := by rw [hs]; rfl
  have htime : w.txTime rid .scope = w.clock := by rw [ApiWorld.txTime, hs]; rfl
  have hstore : Views c.convId (afterStore rid agent .scope m w)
    (LogCache.store ⟨.assistant, g.fullAnswer⟩ st) :=
    h.afterStore rfl hnew hdocs (by rw [htime]; exact h.past) (by rw [htime])
  have happend := hstore.append rid agent s ⟨.assistant, g.fullAnswer⟩
  have hadd : (apiHandler rid agent (.addMessage .scope m) w).1 = .ok (w.messageRow rid .scope m) := rfl
  have hcommit := commit_reply rid agent m hdocs
  have hfin := quiet_finishAnswer c u g
  simp only [Prog.exec_call, appendWorlds_call, hadd, hcommit, Prog.cont_ok, isAppend]
  refine ⟨happend.exec_quiet rid agent hfin, _, ?_, happend⟩
  exact congrArg (List.cons _) (appendWorlds_of_quiet rid agent hfin _)

/-- What is left of `gen` after the loop over the agent's events. -/
def afterLoop (s : BufferSettings) (c : ChatCall) (u : Uuid) : ForInStep GenState → Api Unit
  | .done _ => pure ()
  | .yield g => persistAnswer s c u g

theorem chatGen_eq (s : BufferSettings) (c : ChatCall) (summary : Option String) (u : Uuid) :
    chatGen s c summary u =
      ((Prog.forEach onAgentEvent (runAgentStream c.message c.convId c.userId c.tenantId summary)
        ⟨"", [], none⟩) >>= afterLoop s c u).handle fun e => api (.send (.error e.str)) := rfl

/-- After the question was appended, the agent's events go out, and an answer may be appended. -/
private theorem chatGen_spec (h : Views c.convId w st) (hs : w.sessions rid .scope = Session.fresh)
    (summary : Option String) (u : Uuid) : ∃ a : Option ChatMessage,
    Views c.convId ((chatGen s c summary u).exec (apiHandler rid agent) w).2
      (match a with | none => st | some a => LogCache.answer s.shortTermBufferSize a st) ∧
    List.Forall₂ (Views c.convId) (appendWorlds (apiHandler rid agent) (chatGen s c summary u) w)
      (match a with | none => [] | some a => [LogCache.answer s.shortTermBufferSize a st]) := by
  rw [chatGen_eq]
  set loop := Prog.forEach onAgentEvent (runAgentStream c.message c.convId c.userId c.tenantId summary)
    ⟨"", [], none⟩ with hloop
  have hquiet : loop.Only Quiet := Prog.follows_forEach quiet_onAgentEvent
    (runAgentStream_follows trivial trivial trivial fun _ _ _ _ => trivial) _
  have hsend : ∀ e : ApiErr, (api (.send (.error e.str))).Only Quiet := fun e => Prog.only_perform trivial
  have hv := h.exec_quiet rid agent hquiet
  have hframe := Prog.exec_of_only (frame_quiet rid agent) hquiet w
  have hs' : (loop.exec (apiHandler rid agent) w).2.sessions rid .scope = Session.fresh := by
    simp only [frame, Prod.mk.injEq] at hframe
    rw [hframe.2.2, hs]
  rw [appendWorlds_handle rid agent hsend, appendWorlds_bind, appendWorlds_of_quiet rid agent hquiet,
    List.nil_append, Prog.exec_handle, Prog.exec_bind]
  have hcatch : ∀ r : Except ApiErr Unit,
    ((.done r : Api Unit).handle fun e => api (.send (.error e.str))).Only Quiet :=
    fun r => Prog.only_handle (Prog.only_done _) hsend
  cases hr : (loop.exec (apiHandler rid agent) w).1 with
  | error e =>
    exact ⟨none, (hv.exec_quiet rid agent (Prog.only_done _)).exec_quiet rid agent (hcatch _), .nil⟩
  | ok r =>
    cases r with
    | done g =>
      exact ⟨none, (hv.exec_quiet rid agent (Prog.only_done _)).exec_quiet rid agent (hcatch _), .nil⟩
    | yield g =>
      obtain ⟨hfinal, v, happ, hv'⟩ := persistAnswer_spec rid agent s hv hs' u g
      refine ⟨some ⟨.assistant, g.fullAnswer⟩, hfinal.exec_quiet rid agent (hcatch _), ?_⟩
      rw [Prog.cont_ok, afterLoop, happ]
      exact .cons hv' .nil

theorem chatTurn_eq (s : BufferSettings) (c : ChatCall) (summary : Option String) :
    chatTurn s c summary =
      .call (.addMessage .request ⟨c.convId, .user, c.message, [], none, none⟩) (Prog.cont fun m : Message =>
        .call (.commit .request) (Prog.cont fun _ : Unit => ensureBuffer s c.convId >>= fun _ =>
          .call (.pipeline (appendCmds s c.convId ⟨.user, c.message⟩)) (Prog.cont fun _ : Unit =>
            .call .getArqPool (Prog.cont fun _ : Unit => chatGen s c summary m.id)))) := rfl

/-- A question is stored, the buffer made warm and the question appended; an answer may follow. -/
private theorem chatTurn_spec (h : Views c.convId w st) (hnew : (w.sessions rid .request).newMessages = [])
    (hdocs : (w.sessions rid .request).newDocuments = [])
    (hlate : ∀ r ∈ w.messages, r.conversationId = c.convId → r.createdAt < w.txTime rid .request)
    (hle : w.txTime rid .request ≤ w.clock) (hscope : w.sessions rid .scope = Session.fresh)
    (summary : Option String) : ∃ a, Views c.convId ((chatTurn s c summary).exec (apiHandler rid agent) w).2
      (LogCache.next s.shortTermBufferSize 20 st (.turn ⟨.user, c.message⟩ a)) ∧
    List.Forall₂ (Views c.convId) (appendWorlds (apiHandler rid agent) (chatTurn s c summary) w)
      (LogCache.appends s.shortTermBufferSize 20 st (.turn ⟨.user, c.message⟩ a)) := by
  rw [chatTurn_eq]
  set m : NewMessage := ⟨c.convId, .user, c.message, [], none, none⟩ with hm
  have hadd : (apiHandler rid agent (.addMessage .request m) w).1 = .ok (w.messageRow rid .request m) :=
    rfl
  have hcommit : apiHandler rid agent (.commit .request) (apiHandler rid agent (.addMessage .request m) w).2 =
      (.ok (), afterStore rid agent .request m w) := Prod.ext (commit_reply rid agent m hdocs) rfl
  have hstored : Views c.convId (afterStore rid agent .request m w) (LogCache.store ⟨.user, c.message⟩ st) :=
    h.afterStore rfl hnew hdocs hlate hle
  obtain ⟨hok, hwarm, hscope', hnone⟩ := ensureBuffer_spec rid agent s hstored (afterStore_newMessages hdocs)
  rw [afterStore_other hdocs (by decide), hscope] at hscope'
  have hask := hwarm.append rid agent s ⟨.user, c.message⟩
  have hpool := hask.exec_quiet rid agent (Prog.only_perform trivial : (api .getArqPool).Only Quiet)
  obtain ⟨a, hfinal, happ⟩ :=
    chatGen_spec rid agent s hpool hscope' summary (w.messageRow rid .request m).id
  refine ⟨a, ?_, ?_⟩
  · simp only [Prog.exec_call, hadd, hcommit, Prog.cont_ok, Prog.exec_bind, hok]
    cases a <;> exact hfinal
  · simp only [appendWorlds_call, isAppend, hadd, hcommit, Prog.cont_ok, appendWorlds_bind, hok, hnone,
      List.nil_append]
    cases a <;> exact .cons hask happ

/-- The conversation of the request is one of its user. -/
def Owns (c : ChatCall) (w : ApiWorld) : Prop :=
  ∃ conv, w.conversations.find? (fun k => k.id = c.convId ∧ k.userId = c.userId) = some conv

theorem chatStream_eq (s : BufferSettings) (c : ChatCall) :
    chatStream s c = .call (.getConversation .request c.convId c.userId)
      (Prog.cont fun conv : Option Conversation =>
      match conv with
      | none => .done (.error (.http 404 "conversation not found"))
      | some conv => chatTurn s c conv.summary) := by
  refine congrArg (Prog.call _) (funext fun r => ?_)
  cases r with
  | error e => rfl
  | ok conv => cases conv <;> rfl

private theorem getConversation_reply (c : ChatCall) (w : ApiWorld) :
    (apiHandler rid agent (.getConversation .request c.convId c.userId) w).1 =
      .ok (w.conversations.find? fun k => k.id = c.convId ∧ k.userId = c.userId) := rfl

/-- A request on a conversation of its user. -/
theorem chatStream_spec (h : Views c.convId w st) (hs : w.sessions rid = fun _ => Session.fresh)
    (ho : Owns c w) :
    ∃ a, Views c.convId ((chatStream s c).exec (apiHandler rid agent) w).2
      (LogCache.next s.shortTermBufferSize 20 st (.turn ⟨.user, c.message⟩ a)) ∧
    List.Forall₂ (Views c.convId) (appendWorlds (apiHandler rid agent) (chatStream s c) w)
      (LogCache.appends s.shortTermBufferSize 20 st (.turn ⟨.user, c.message⟩ a)) := by
  obtain ⟨conv, hconv⟩ := ho
  have hv : Views c.convId (apiHandler rid agent (.getConversation .request c.convId c.userId) w).2 st :=
    h.of_frame rfl rfl (Nat.le_succ _)
  have hsession : (apiHandler rid agent (.getConversation .request c.convId c.userId) w).2.sessions
    rid .request = ⟨some w.clock, some conv, [], []⟩ := by
    simp [apiHandler, apiReply, ApiWorld.tick, ApiWorld.touch, ApiWorld.setSession,
      ApiWorld.txTime, hs, hconv, Session.fresh, -Bool.decide_and]
  have hscope : (apiHandler rid agent (.getConversation .request c.convId c.userId) w).2.sessions rid .scope =
      Session.fresh := by
    simp [apiHandler, apiReply, ApiWorld.tick, ApiWorld.touch, ApiWorld.setSession, hs]
  have htime : (apiHandler rid agent (.getConversation .request c.convId c.userId) w).2.txTime rid
      .request = w.clock := by
    rw [ApiWorld.txTime, hsession]
    rfl
  rw [chatStream_eq]
  simp only [Prog.exec_call, appendWorlds_call, isAppend, getConversation_reply, hconv, Prog.cont_ok]
  refine chatTurn_spec rid agent s hv ?_ ?_ ?_ ?_ hscope conv.summary
  · rw [hsession]
  · rw [hsession]
  · rw [htime]; exact h.past
  · rw [htime]; exact Nat.le_succ _

/-- A request on a conversation that is not of its user. -/
theorem chatStream_spec_of_not_owns (h : Views c.convId w st) (ho : ¬ Owns c w) :
    Views c.convId ((chatStream s c).exec (apiHandler rid agent) w).2 st ∧
      appendWorlds (apiHandler rid agent) (chatStream s c) w = [] := by
  have hv : Views c.convId (apiHandler rid agent (.getConversation .request c.convId c.userId) w).2 st :=
    h.of_frame rfl rfl (Nat.le_succ _)
  have hconv : w.conversations.find? (fun k => k.id = c.convId ∧ k.userId = c.userId) = none :=
    Option.eq_none_iff_forall_ne_some.mpr fun conv hc => ho ⟨conv, hc⟩
  rw [chatStream_eq]
  simp only [Prog.exec_call, appendWorlds_call, isAppend, getConversation_reply, hconv, Prog.cont_ok]
  exact ⟨hv, rfl⟩

end Turn

end LegalRag
