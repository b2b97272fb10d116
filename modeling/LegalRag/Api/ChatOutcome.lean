import LegalRag.Api.EventStream

/-!
# What the client is told of an answer

`gen` commits the answer, appends it to the buffer, enqueues the extraction of facts, and then yields
`done`.  The enqueueing has a handler of its own, the append has none: if it fails, the client is told of
an error, although the answer is stored. `outcome_agrees_iff` says exactly when the outcome that the
client is told agrees with what is stored.
-/

namespace LegalRag

open Calls Prog

/-- The failures of a step: an exception, which may come after the step took effect; what is yielded goes
out. -/
def ChatFault (o : ApiOp) : Outcome ApiErr → Prop
  | .ok => True
  | .raised _ _ => ∀ e, o ≠ .send e
  | .crashed _ => False

/-- The commit is not made if it is seen to fail, and the append to the buffer does not fail. -/
def AnswerKept : ApiOp → Outcome ApiErr → Prop
  | .commit _, out => out = .ok ∨ out.applied = false
  | .pipeline _, out => out = .ok
  | _, _ => True

/-- The last event is `done`. -/
def EndsDone (sent : List SseEvent) : Prop := ∃ u cs usage, sent.getLast? = some (.done u cs usage)

/-- The last event is `error`. -/
def EndsError (sent : List SseEvent) : Prop := ∃ d, sent.getLast? = some (.error d)

/-- An assistant message of the conversation has been committed. -/
def AnswerStored (c : ChatCall) (w₀ w : ApiWorld) : Prop :=
  ∃ m : Message, m.conversationId = c.convId ∧ m.role = .assistant ∧ w.messages = w₀.messages ++ [m]

/-- A stream ends with `done` if and only if the answer is stored, and one that ends with `error` leaves
none. -/
structure OutcomeAgrees (c : ChatCall) (w₀ : ApiWorld) (w : Streamed) : Prop where
  done : EndsDone w.sent ↔ AnswerStored c w₀ w.api
  error : EndsError w.sent → ¬ AnswerStored c w₀ w.api

section Agreement

variable {ch : ChatCall} {w₀ : ApiWorld} {w : Streamed}

private theorem not_endsDone_of_error (h : EndsError w.sent) : ¬ EndsDone w.sent := by
  intro hdone
  obtain ⟨d, hd⟩ := h
  obtain ⟨u, cs, usage, hu⟩ := hdone
  rw [hd] at hu
  cases hu

private theorem not_endsError_of_done (h : EndsDone w.sent) : ¬ EndsError w.sent :=
  fun he => not_endsDone_of_error he h

private theorem not_answerStored (h : w.api.messages = w₀.messages) : ¬ AnswerStored ch w₀ w.api := by
  intro hs
  obtain ⟨m, -, -, hm⟩ := hs
  have hlen := congrArg List.length (h.symm.trans hm)
  simp at hlen

private theorem agrees_of_done (hd : EndsDone w.sent) (hs : AnswerStored ch w₀ w.api) :
    OutcomeAgrees ch w₀ w :=
  ⟨iff_of_true hd hs, fun he => absurd he (not_endsError_of_done hd)⟩

private theorem agrees_of_error (he : EndsError w.sent) (hm : w.api.messages = w₀.messages) :
    OutcomeAgrees ch w₀ w :=
  ⟨iff_of_false (not_endsDone_of_error he) (not_answerStored hm), fun _ => not_answerStored hm⟩

private theorem not_agrees_of_error (he : EndsError w.sent) (hs : AnswerStored ch w₀ w.api) :
    ¬ OutcomeAgrees ch w₀ w :=
  fun h => h.error he hs

end Agreement

/-! ### The answer -/

section Persist

variable {rid : Nat} {agent : AgentReplies} {s : BufferSettings} {ch : ChatCall} {w₀ : ApiWorld}
    {c : Prop} {w : Streamed}

/-- Where a part of `gen` leaves the request: the client has heard `done` of a stored answer, or an
exception comes, before anything is stored or, against `AnswerKept`, after that. -/
inductive PersistEnds (ch : ChatCall) (w₀ : ApiWorld) (c : Prop) (w : Streamed) : Except ApiErr Unit → Prop
  | done (hc : c) (stored : AnswerStored ch w₀ w.api) (told : EndsDone w.sent) :
      PersistEnds ch w₀ c w (.ok ())
  | left (hc : c) (none : w.api.messages = w₀.messages) (told : EndsError w.sent) :
      PersistEnds ch w₀ c w (.ok ())
  | before (e : ApiErr) (hc : c) (none : w.api.messages = w₀.messages) : PersistEnds ch w₀ c w (.error e)
  | after (e : ApiErr) (hc : ¬ c) (stored : AnswerStored ch w₀ w.api) : PersistEnds ch w₀ c w (.error e)

/-- Quiet calls leave the messages. -/
theorem messages_quiet {o : ApiOp} (ho : Quiet o) (w : Streamed) :
    (streamHandler rid agent o w).2.api.messages = w.api.messages :=
  congrArg Prod.fst (frame_quiet rid agent o w.api ho)

/-- The client hears that all is done. -/
private theorem sendDone_exact (u : Uuid) (cs : List Citation) (usage : Option Usage) (hc : c)
    (hs : AnswerStored ch w₀ w.api) :
    (api (.send (.done u cs usage))).Exact (streamHandler rid agent) AnswerKept ChatFault (fun _ => True)
      (fun c r v => PersistEnds ch w₀ c v r) c w := by
  refine exact_call trivial trivial (fun _ => ?_) fun e applied hB => absurd rfl (hB _)
  refine exact_done trivial (.done ⟨hc, trivial⟩ ?_ ⟨u, cs, usage, List.getLast?_concat⟩)
  obtain ⟨m, hconv, hrole, hm⟩ := hs
  exact ⟨m, hconv, hrole, (messages_quiet (o := .send (.done u cs usage)) trivial w).trans hm⟩

/-- Whatever becomes of the enqueueing, the client hears that all is done. -/
private theorem finishAnswer_exact (u : Uuid) (st : GenState) (hc : c) (hs : AnswerStored ch w₀ w.api) :
    (finishAnswer ch u st).Exact (streamHandler rid agent) AnswerKept ChatFault (fun _ => True)
      (fun c r v => PersistEnds ch w₀ c v r) c w := by
  have hquiet : Quiet (.enqueueJob "extract_facts" (toString ch.convId)) := trivial
  have hstored : ∀ out : Outcome ApiErr, AnswerStored ch w₀
      (out.world (streamHandler rid agent) (.enqueueJob "extract_facts" (toString ch.convId)) w).api := by
    intro out
    obtain ⟨m, hconv, hrole, hm⟩ := hs
    refine ⟨m, hconv, hrole, ?_⟩
    rcases Outcome.world_eq (streamHandler rid agent) (.enqueueJob "extract_facts" (toString ch.convId)) w
      out with he | he
    · rw [he, hm]
    · rw [he]
      exact (messages_quiet hquiet w).trans hm
  have hsend : ∀ (c : Prop) (v : Streamed), c → AnswerStored ch w₀ v.api →
      (api (.send (.done u st.citations st.usage))).Exact (streamHandler rid agent) AnswerKept ChatFault
        (fun _ => True) (fun c r v => PersistEnds ch w₀ c v r) c v :=
        fun c v hc hs => sendDone_exact u st.citations st.usage hc hs
  refine exact_bind
    (exact_handle (exact_bind (exact_call trivial trivial (fun _ => ?_) fun e applied _ => ?_)))
  · -- the job is enqueued, or the pool refuses it
    refine exact_done trivial ?_
    cases (streamHandler rid agent (.enqueueJob "extract_facts" (toString ch.convId)) w).1 with
    | ok a => exact exact_done trivial (exact_done trivial (hsend _ _ ⟨hc, trivial⟩ (hstored .ok)))
    | error e => exact exact_done trivial (exact_done trivial (hsend _ _ ⟨hc, trivial⟩ (hstored .ok)))
  · refine exact_done trivial (exact_done trivial (exact_done trivial (hsend _ _ ⟨hc, trivial⟩ ?_)))
    exact hstored (.raised e applied)

/-- The row of the answer becomes visible at the commit. -/
private theorem commit_after_insert {n : NewMessage} (hconv : n.conversationId = ch.convId)
    (hrole : n.role = .assistant) (hm : w.api.messages = w₀.messages)
    (hscope : w.api.sessions rid .scope = Session.fresh) :
    (streamHandler rid agent (.commit .scope) (streamHandler rid agent (.addMessage .scope n) w).2).1 =
    .ok () ∧
      AnswerStored ch w₀ (streamHandler rid agent (.commit .scope)
        (streamHandler rid agent (.addMessage .scope n) w).2).2.api := by
  have hnew : (w.api.sessions rid .scope).newMessages = [] := congrArg Session.newMessages hscope
  have hdocs : (w.api.sessions rid .scope).newDocuments = [] := congrArg Session.newDocuments hscope
  refine ⟨commit_reply rid agent n hdocs, w.api.messageRow rid .scope n, hconv, hrole, ?_⟩
  rw [← hm]
  exact afterStore_messages hnew hdocs

/-- The answer is inserted, committed, and appended to the buffer. -/
private theorem persistAnswer_exact (u : Uuid) (st : GenState) (hc : c) (hw : frame w.api = frame w₀)
    (hscope : w₀.sessions rid .scope = Session.fresh) :
    (persistAnswer s ch u st).Exact (streamHandler rid agent) AnswerKept
      ChatFault (fun _ => True) (fun c r v => PersistEnds ch w₀ c v r) c w := by
  have hm : w.api.messages = w₀.messages := congrArg Prod.fst hw
  have hsess : w.api.sessions rid .scope = Session.fresh := by
    rw [show w.api.sessions = w₀.sessions from congrArg (·.2.2) hw, hscope]
  rw [persistAnswer_eq]
  set n : NewMessage :=
    ⟨ch.convId, .assistant, st.fullAnswer, st.citations, st.usage.map Usage.promptTokens,
    st.usage.map Usage.completionTokens⟩ with hn
  refine exact_call trivial trivial (fun _ => ?_) fun e applied _ =>
    exact_done trivial (.before e ⟨hc, trivial⟩ ?_)
  · -- the commit
    obtain ⟨hreply, hstored⟩ := @commit_after_insert rid agent ch w₀ w n rfl rfl hm hsess
    refine exact_call trivial trivial (fun _ => ?_) fun e applied _ => ?_
    · rw [hreply]
      -- the append to the buffer
      refine exact_call trivial trivial (fun _ => ?_) fun e applied _ => ?_
      · exact finishAnswer_exact u st ⟨⟨⟨hc, trivial⟩, Or.inl rfl⟩, rfl⟩ hstored
      · refine exact_done trivial (.after e (fun hall => ?_) ?_)
        · cases hall.2
        · cases applied <;> exact hstored
    · cases applied with
      | true =>
        refine exact_done trivial (.after e (fun hall => ?_) hstored)
        rcases hall.2 with h | h <;> cases h
      | false => exact exact_done trivial (.before e ⟨⟨hc, trivial⟩, Or.inr rfl⟩ hm)
  · cases applied <;> exact hm

/-- After an exception the client is told of it. -/
private theorem caught_exact {r : Except ApiErr Unit} (hw : PersistEnds ch w₀ c w r) :
    ((.done r : Api Unit).handle fun e => api (.send (.error e.str))).Exact
      (streamHandler rid agent) AnswerKept ChatFault
      (fun _ => True) (fun c _ v => OutcomeAgrees ch w₀ v ↔ c) c w := by
  have hlast : ∀ d, EndsError (streamHandler rid agent (.send (.error d)) w).2.sent :=
    fun d => ⟨d, List.getLast?_concat⟩
  cases hw with
  | done hc stored told => exact exact_done trivial (iff_of_true (agrees_of_done told stored) hc)
  | left hc none told => exact exact_done trivial (iff_of_true (agrees_of_error told none) hc)
  | before e hc none =>
    refine exact_call trivial trivial (fun _ => exact_done trivial ?_) fun e' applied hB =>
      absurd rfl (hB _)
    exact iff_of_true (agrees_of_error (hlast _)
      ((messages_quiet (o := .send (.error e.str)) trivial w).trans none)) ⟨hc, trivial⟩
  | after e hc stored =>
    refine exact_call trivial trivial (fun _ => exact_done trivial ?_) fun e' applied hB =>
      absurd rfl (hB _)
    obtain ⟨m, hconv, hrole, hm⟩ := stored
    refine iff_of_false (not_agrees_of_error (hlast _) ⟨m, hconv, hrole, ?_⟩) fun hall => hc hall.1
    exact (messages_quiet (o := .send (.error e.str)) trivial w).trans hm

end Persist

/-! ### The whole stream -/

private theorem chatGen_exact (s : BufferSettings) (ch : ChatCall) (summary : Option String) (u : Uuid)
    (rid : Nat) (agent : AgentReplies) {w : ApiWorld} (hscope : w.sessions rid .scope = Session.fresh) :
    (chatGen s ch summary u).Exact (streamHandler rid agent)
      AnswerKept ChatFault (fun _ => True) (fun c _ v => OutcomeAgrees ch w v ↔ c) True ⟨w, []⟩ := by
  have hquiet : ∀ o out, Quiet o → AnswerKept o out := by
    intro o out ho
    cases o <;> first | exact ho.elim | trivial
  have hloop := @agentLoop_exact rid agent AnswerKept ChatFault (fun _ => True) w True
    (fun _ _ => trivial) hquiet trivial ch.message ch.convId ch.userId ch.tenantId summary
  rw [chatGen_eq]
  refine exact_handle (exact_bind (hloop.mono fun c r v _ hend => ?_))
  cases r with
  | error e =>
    exact exact_done trivial (caught_exact (.before e hend.exact (congrArg Prod.fst hend.still)))
  | ok x =>
    cases x with
    | done st =>
      exact exact_done trivial (caught_exact
        (.left hend.exact (congrArg Prod.fst hend.still) (hend.told st rfl)))
    | yield st =>
      exact (persistAnswer_exact u st hend.exact hend.still hscope).mono fun c r v _ hr => caught_exact hr

/-- The client is told the outcome that is stored exactly in those runs of the stream in which a commit
that is seen to fail has not been made, and the append of the answer to the buffer does not fail. -/
theorem outcome_agrees_iff (s : BufferSettings) (ch : ChatCall) (summary : Option String)
    (u : Uuid) (rid : Nat) (agent : AgentReplies) (w : ApiWorld)
    (hscope : w.sessions rid .scope = Session.fresh) (outs : List (Outcome ApiErr))
    (hfault : (chatGen s ch summary u).Legal (streamHandler rid agent) ChatFault outs ⟨w, []⟩) :
    OutcomeAgrees ch w ((chatGen s ch summary u).run (streamHandler rid agent) outs ⟨w, []⟩).2 ↔
      (chatGen s ch summary u).Legal (streamHandler rid agent) AnswerKept outs ⟨w, []⟩ := by
  obtain ⟨r, hr⟩ := exists_result (fun _ _ h => h) hfault
  have hrun := (exact_run (chatGen_exact s ch summary u rid agent hscope) hfault).2 r hr
  rwa [true_and] at hrun

/-! ### Two runs -/

/-- An agent that finds nothing and answers with one token. -/
def shortAgent : AgentReplies := ⟨.ok [], .ok [], .ok ⟨[⟨[some "Theo"], none⟩], none⟩⟩

def aChat : ChatCall := ⟨1, 2, 3, "hop dong?"⟩

def aBuffer : BufferSettings := ⟨20, 3600⟩

/-- In a run without failures the outcome agrees. -/
theorem outcome_agrees_undisturbed :
    OutcomeAgrees aChat .blank
      ((chatGen aBuffer aChat none 7).run (streamHandler 0 shortAgent) [] ⟨.blank, []⟩).2 :=
  (outcome_agrees_iff aBuffer aChat none 7 0 shortAgent .blank rfl [] (legal_nil (fun _ => trivial) _ _)).mpr
    (legal_nil (fun o => by cases o <;> first | exact Or.inl rfl | trivial) _ _)

/-- The append of the answer to the buffer fails. -/
def appendFails : List (Outcome ApiErr) :=
  List.replicate 10 .ok ++ [.raised (.other "Redis is down") false]

/-- The client is told of an error, and the answer is stored. -/
theorem not_always_agrees :
    ¬ OutcomeAgrees aChat .blank ((chatGen aBuffer aChat none 7).run
      (streamHandler 0 shortAgent) appendFails ⟨.blank, []⟩).2 := by
  have hend : EndsError ((chatGen aBuffer aChat none 7).run (streamHandler 0 shortAgent) appendFails
    ⟨.blank, []⟩).2.sent :=
    ⟨"Redis is down", by decide +kernel⟩
  have hstored : ((chatGen aBuffer aChat none 7).run (streamHandler 0 shortAgent) appendFails
    ⟨.blank, []⟩).2.api.messages =
      ApiWorld.blank.messages ++ [⟨⟨1, .assistant, "Theo", [], none, none⟩, 1, 8⟩] := by decide +kernel
  exact not_agrees_of_error hend ⟨_, rfl, rfl, hstored⟩

end LegalRag
