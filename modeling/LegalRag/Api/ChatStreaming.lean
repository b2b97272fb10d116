import LegalRag.Api.ChatOutcome

/-!
# The streaming protocol

What the agent yields when its nodes succeed (`agentEvents_eq`): the two tool calls, the citations, a
token for every delta that is not empty, and then `done` or `error`.  And what the chat route stores
(`chatGen_faithful`): the answer is gathered twice, in the agent and in the route, and both are the text
of the tokens that have gone out, whatever fails on the way.
-/

namespace LegalRag

open Calls Prog

/-! ### What the agent yields -/

/-- The calls of a generator, of which the yields are kept. -/
def collect {I : Iface} {ε W Y : Type} (h : Handler I ε W) : Handler (I.yielding Y) ε (W × List Y)
  | .inl o, v => ((h o v.1).1, (h o v.1).2, v.2)
  | .inr y, v => (.ok (), v.1, v.2 ++ [y])

/-- The events of `run_agent_stream`. -/
def agentEvents {W : Type} (h : Handler ApiCalls ApiErr W) (m : String) (convId userId tenantId : Uuid)
    (summary : Option String) (w : W) : List AgentEvent :=
  ((runAgentStream m convId userId tenantId summary).exec (collect h) (w, [])).2.2

/-- The deltas of a stream that are not empty. -/
def deltas : Except ApiErr LlmStream → List String
  | .ok stream => stream.chunks.filterMap deltaOf
  | .error _ => []

/-- The last usage that the chunks carry. -/
def lastUsage (chunks : List LlmChunk) : Option Usage :=
  chunks.foldl (fun usage c => (c.usage.map ChunkUsage.total).or usage) none

/-- The answer of the model: an exception of the call or of the stream, or all the deltas and the last
usage. -/
def modelAnswer : Except ApiErr LlmStream → Except ApiErr (List String × Option Usage)
  | .error e => .error e
  | .ok stream =>
    match stream.failure with
    | some e => .error e
    | none => .ok (stream.chunks.filterMap deltaOf, lastUsage stream.chunks)

/-- How the events end: with `done`, or with `error` after an exception. -/
def lastEvent (cites : List Citation) : Except ApiErr (List String × Option Usage) → AgentEvent
  | .ok (fullText, usage) => .done (String.join fullText) cites usage
  | .error e => .error e.str

section Exec

variable {I : Iface} {ε W Y α : Type} {h : Handler I ε W}

private theorem exec_lift (p : Prog I ε α) (w : W) (ys : List Y) :
    (p.lift : Prog (I.yielding Y) ε α).exec (collect h) (w, ys) = ((p.exec h w).1, (p.exec h w).2, ys) := by
  induction p generalizing w with
  | done r => rfl
  | call o k ih => exact ih _ _

private theorem exec_emit_bind (y : Y) (f : Unit → Prog (I.yielding Y) ε α) (w : W) (ys : List Y) :
    (emit y >>= f).exec (collect h) (w, ys) = (f ()).exec (collect h) (w, ys ++ [y]) := rfl

private theorem exec_lift_bind {β : Type} {p : Prog I ε α} {w w' : W} {a : α} (hp : p.exec h w = (.ok a, w'))
    (f : α → Prog (I.yielding Y) ε β) (ys : List Y) :
    (p.lift >>= f).exec (collect h) (w, ys) = (f a).exec (collect h) (w', ys) := by
  rw [exec_bind, exec_lift, hp]
  rfl

end Exec

section Events

variable {W : Type} {h : Handler ApiCalls ApiErr W}

/-- The tokens of the chunks, their text and the last usage. -/
private theorem exec_streamChunks (cs : List LlmChunk) (acc : List String × Option Usage) (w : W)
    (ys : List AgentEvent) :
    (streamChunks cs acc).exec (collect h) (w, ys) =
      (.ok (acc.1 ++ cs.filterMap deltaOf,
        cs.foldl (fun usage c => (c.usage.map ChunkUsage.total).or usage) acc.2),
        w, ys ++ (cs.filterMap deltaOf).map .token) := by
  induction cs generalizing acc ys with
  | nil => simp [streamChunks]
  | cons c cs ih =>
    obtain ⟨fullText, usage⟩ := acc
    rw [streamChunks]
    cases hd : deltaOf c with
    | none =>
      rw [ih]
      simp [hd]
    | some d =>
      rw [exec_emit_bind, ih]
      simp [hd, List.append_assoc]

/-- The answer of the model, as far as it comes. -/
private theorem exec_streamAnswer (msgs : List ChatMessage) (w : W) (ys : List AgentEvent) :
    (streamAnswer msgs).exec (collect h) (w, ys) =
    (modelAnswer (h (.completeStream msgs) w).1, (h (.completeStream msgs) w).2,
      ys ++ (deltas (h (.completeStream msgs) w).1).map .token) := by
  unfold streamAnswer
  rw [exec_bind, exec_lift]
  show (cont _ (h (.completeStream msgs) w).1).exec (collect h) ((h (.completeStream msgs) w).2, ys) = _
  cases (h (.completeStream msgs) w).1 with
  | error e => simp [modelAnswer, deltas]
  | ok stream =>
    rw [cont_ok, exec_bind, exec_streamChunks]
    cases hf : stream.failure with
    | some e => simp [modelAnswer, deltas, hf]
    | none => simp [modelAnswer, deltas, hf, lastUsage]

/-- The tokens, and then `done` or `error`. -/
private theorem events_answer (msgs : List ChatMessage) (cites : List Citation) (w : W)
    (ys : List AgentEvent) :
    ((tryStream msgs >>= fun found => match found with
      | none => pure ()
      | some (fullText, usage) =>
        emit (.done (String.join fullText) cites usage)).exec (collect h) (w, ys)).2.2 =
      ys ++ (deltas (h (.completeStream msgs) w).1).map .token ++
      [lastEvent cites (modelAnswer (h (.completeStream msgs) w).1)] := by
  unfold tryStream
  rw [exec_bind, tryCatch_def, exec_handle, map_eq_pure_bind, exec_bind, exec_streamAnswer]
  cases modelAnswer (h (.completeStream msgs) w).1 with
  | ok acc => rfl
  | error e => rfl

/-- The events of the agent, when its nodes succeed. -/
theorem agentEvents_eq (m : String) (convId userId tenantId : Uuid) (summary : Option String) (w : W)
    {st₁ st₂ : AgentState} {w₁ w₂ : W}
    (hmemory : (loadMemoryNode ⟨m, convId, userId, tenantId, summary, [], [], [], []⟩).exec h w =
    (.ok st₁, w₁)) (hdocs : (retrieveDocsNode st₁).exec h w₁ = (.ok st₂, w₂)) :
    agentEvents h m convId userId tenantId summary w =
    .toolCall "load_memory" :: .toolCall "retrieve_docs" ::
      .citations st₂.citations ::
        ((deltas (h (.completeStream (buildAnswerMessages m st₂.shortTermHistory st₂.summary
        st₂.longTermFacts st₂.retrieved)) w₂).1).map .token ++
        [lastEvent st₂.citations (modelAnswer (h (.completeStream
          (buildAnswerMessages m st₂.shortTermHistory st₂.summary st₂.longTermFacts st₂.retrieved))
            w₂).1)]) := by
  unfold agentEvents runAgentStream
  rw [exec_emit_bind, exec_lift_bind hmemory, exec_emit_bind, exec_lift_bind hdocs, exec_emit_bind]
  exact (events_answer _ _ _ _).trans (by simp)

end Events

/-! ### What is stored -/

section Stored

variable {rid : Nat} {agent : AgentReplies} {s : BufferSettings} {ch : ChatCall} {w₀ : ApiWorld}
    {w : Streamed}

/-- The message has the text of the tokens and the citations that have gone out. -/
def MatchesSent (m : Message) (sent : List SseEvent) : Prop :=
  m.content = String.join (sent.filterMap tokenData) ∧ sent.filterMap citationsData = [m.citations]

/-- Nothing is stored, or a message of what has gone out. -/
def Faithful (w₀ : ApiWorld) (w : Streamed) : Prop :=
  w.api.messages = w₀.messages ∨ ∃ m, w.api.messages = w₀.messages ++ [m] ∧ MatchesSent m w.sent

/-- The calls after the commit of the answer. -/
def Closing : ApiOp → Prop
  | .pipeline _ | .enqueueJob .. => True
  | .send e => tokenData e = none ∧ citationsData e = none
  | _ => False

/-- They store nothing, and send neither tokens nor citations. -/
private theorem closing_same {o : ApiOp} (ho : Closing o) (w : Streamed) :
    (streamHandler rid agent o w).2.api.messages = w.api.messages ∧
      (streamHandler rid agent o w).2.sent.filterMap tokenData = w.sent.filterMap tokenData ∧
        (streamHandler rid agent o w).2.sent.filterMap citationsData = w.sent.filterMap citationsData := by
  cases o with
  | pipeline cmds => simp [streamHandler, eventOf, apiHandler, apiReply, ApiWorld.tick]
  | enqueueJob function arg =>
    have hm := @messages_quiet rid agent (.enqueueJob function arg) trivial w
    refine ⟨hm, ?_, ?_⟩ <;> simp [streamHandler, eventOf]
  | send e =>
    have hm := @messages_quiet rid agent (.send e) trivial w
    refine ⟨hm, ?_, ?_⟩ <;> simp [streamHandler, eventOf, ho.1, ho.2]
  | _ => exact ho.elim

private theorem closing_faithful {o : ApiOp} (ho : Closing o) (hw : Faithful w₀ w) :
    Faithful w₀ (streamHandler rid agent o w).2 := by
  obtain ⟨hm, htokens, hcites⟩ := @closing_same rid agent o ho w
  rcases hw with hw | ⟨m, hmessages, hcontent, hcitations⟩
  · exact Or.inl (hm.trans hw)
  · exact Or.inr ⟨m, hm.trans hmessages, htokens ▸ hcontent, hcites ▸ hcitations⟩

/-- What comes after the commit. -/
private theorem exact_closing {p : Api Unit} (hp : p.Only Closing) (hw : Faithful w₀ w) {c : Prop} (hc : c) :
    p.Exact (streamHandler rid agent) (fun _ _ => True) (fun _ _ => True) (Faithful w₀)
      (fun c _ v => c ∧ Faithful w₀ v) c w :=
  exact_only (fun _ _ ho hv => closing_faithful ho hv) (fun _ hv => hv) (fun _ _ _ _ => trivial) hp hw hc

private theorem finishAnswer_closing (u : Uuid) (st : GenState) : (finishAnswer ch u st).Only Closing := by
  refine only_bind (only_handle ?_ fun _ => only_done _) fun _ => only_perform ⟨rfl, rfl⟩
  exact only_bind (only_perform trivial) fun _ => only_done _

/-- The answer that was gathered is the answer that is stored. -/
private theorem persistAnswer_faithful (u : Uuid) (st : GenState) (hw : frame w.api = frame w₀)
    (hscope : w₀.sessions rid .scope = Session.fresh)
    (hanswer : st.fullAnswer = String.join (w.sent.filterMap tokenData))
    (hcites : w.sent.filterMap citationsData = [st.citations]) {c : Prop} (hc : c) :
    (persistAnswer s ch u st).Exact (streamHandler rid agent) (fun _ _ => True) (fun _ _ => True)
      (Faithful w₀) (fun c _ v => c ∧ Faithful w₀ v) c w := by
  have hm : w.api.messages = w₀.messages := congrArg Prod.fst hw
  have hsess : w.api.sessions rid .scope = Session.fresh := by
    rw [show w.api.sessions = w₀.sessions from congrArg (·.2.2) hw, hscope]
  have hnew : (w.api.sessions rid .scope).newMessages = [] := congrArg Session.newMessages hsess
  have hdocs : (w.api.sessions rid .scope).newDocuments = [] := congrArg Session.newDocuments hsess
  rw [persistAnswer_eq]
  set n : NewMessage :=
    ⟨ch.convId, .assistant, st.fullAnswer, st.citations, st.usage.map Usage.promptTokens,
    st.usage.map Usage.completionTokens⟩ with hn
  have hbefore : Faithful w₀ (streamHandler rid agent (.addMessage .scope n) w).2 := Or.inl hm
  have hstored : Faithful w₀
      (streamHandler rid agent (.commit .scope) (streamHandler rid agent (.addMessage .scope n) w).2).2 := by
    have hsent : (streamHandler rid agent (.commit .scope)
        (streamHandler rid agent (.addMessage .scope n) w).2).2.sent = w.sent := by
      simp [streamHandler, eventOf]
    refine Or.inr ⟨w.api.messageRow rid .scope n, ?_, ?_⟩
    · rw [← hm]
      exact afterStore_messages hnew hdocs
    · rw [hsent]
      exact ⟨hanswer, hcites⟩
  -- the row and its commit may each fail, before or after they take effect
  refine exact_call (Or.inl hm) hbefore (fun _ => ?_) fun e applied _ => ?_
  · refine exact_call hbefore hstored (fun _ => ?_) fun e applied _ => ?_
    · rw [show (streamHandler rid agent (.commit .scope)
        (streamHandler rid agent (.addMessage .scope n) w).2).1 = .ok () from
        commit_reply rid agent n hdocs]
      refine exact_closing ?_ hstored ⟨⟨hc, trivial⟩, trivial⟩
      exact only_bind (only_perform trivial) fun _ => finishAnswer_closing u st
    · refine exact_closing (only_done _) ?_ ⟨⟨hc, trivial⟩, trivial⟩
      cases applied with
      | true => exact hstored
      | false => exact hbefore
  · refine exact_closing (only_done _) ?_ ⟨hc, trivial⟩
    cases applied with
    | true => exact hbefore
    | false => exact Or.inl hm

/-- Whatever fails on the way, what is stored is what has gone out. -/
theorem chatGen_faithful (s : BufferSettings) (ch : ChatCall) (summary : Option String)
    (u : Uuid) (rid : Nat) (agent : AgentReplies) {w : ApiWorld}
    (hscope : w.sessions rid .scope = Session.fresh) (outs : List (Outcome ApiErr)) :
    Faithful w ((chatGen s ch summary u).run (streamHandler rid agent) outs ⟨w, []⟩).2 := by
  have hinv : ∀ v : Streamed, frame v.api = frame w → Faithful w v :=
    fun v hv => Or.inl (congrArg Prod.fst hv)
  have hloop := @agentLoop_exact rid agent (fun _ _ => True) (fun _ _ => True)
    (Faithful w) w True hinv (fun _ _ _ => trivial) trivial ch.message ch.convId ch.userId ch.tenantId summary
  have hcaught : ∀ r : Except ApiErr Unit,
    ((.done r : Api Unit).handle fun e => api (.send (.error e.str))).Only Closing :=
    fun r => only_handle (only_done r) fun e => only_perform ⟨rfl, rfl⟩
  have hexact : (chatGen s ch summary u).Exact (streamHandler rid agent) (fun _ _ => True)
    (fun _ _ => True) (Faithful w) (fun c _ v => c ∧ Faithful w v) True ⟨w, []⟩ := by
    rw [chatGen_eq]
    refine exact_handle (exact_bind (hloop.mono fun c r v hv hend => ?_))
    have hclose : ∀ (r : Except ApiErr Unit) (v : Streamed), Faithful w v →
      (.done r : Api Unit).Exact (streamHandler rid agent) (fun _ _ => True) (fun _ _ => True) (Faithful w)
          (fun c r v => ((.done r : Api Unit).handle fun e =>
          api (.send (.error e.str))).Exact (streamHandler rid agent) (fun _ _ => True) (fun _ _ => True)
            (Faithful w) (fun c _ v => c ∧ Faithful w v) c v) c v :=
      fun r v hv => exact_done hv (exact_closing (hcaught r) hv hend.exact)
    cases r with
    | error e => exact hclose _ v hv
    | ok x =>
      cases x with
      | done st => exact hclose _ v hv
      | yield st =>
        obtain ⟨hanswer, hcites⟩ := hend.heard st rfl
        exact (persistAnswer_faithful u st hend.still hscope hanswer hcites hend.exact).mono
          fun c r v _ hr => exact_closing (hcaught r) hr.2 hr.1
  exact (exact_run hexact (legal_of_all (fun _ _ => trivial) outs _ _)).1

end Stored

/-- The agent's events have the form that is promised, and the chat route stores what it has sent. -/
theorem streaming_protocol :
    (∀ {W : Type} (h : Handler ApiCalls ApiErr W) (m : String) (convId userId tenantId : Uuid)
      (summary : Option String) (w : W) (st₁ st₂ : AgentState) (w₁ w₂ : W),
      (loadMemoryNode ⟨m, convId, userId, tenantId, summary, [], [], [], []⟩).exec h w = (.ok st₁, w₁) →
      (retrieveDocsNode st₁).exec h w₁ = (.ok st₂, w₂) →
      agentEvents h m convId userId tenantId summary w =
      .toolCall "load_memory" :: .toolCall "retrieve_docs" ::
        .citations st₂.citations ::
          ((deltas (h (.completeStream (buildAnswerMessages m st₂.shortTermHistory st₂.summary
          st₂.longTermFacts st₂.retrieved)) w₂).1).map .token ++
          [lastEvent st₂.citations (modelAnswer (h (.completeStream
            (buildAnswerMessages m st₂.shortTermHistory st₂.summary st₂.longTermFacts st₂.retrieved))
              w₂).1)])) ∧
    ∀ (s : BufferSettings) (ch : ChatCall) (summary : Option String) (u : Uuid) (rid : Nat)
      (agent : AgentReplies) (w : ApiWorld) (outs : List (Outcome ApiErr)) (m : Message),
      w.sessions rid .scope = Session.fresh →
      ((chatGen s ch summary u).run (streamHandler rid agent) outs ⟨w, []⟩).2.api.messages =
      w.messages ++ [m] →
      MatchesSent m ((chatGen s ch summary u).run (streamHandler rid agent) outs ⟨w, []⟩).2.sent := by
  refine ⟨fun h m convId userId tenantId summary w st₁ st₂ w₁ w₂ hmemory hdocs =>
    agentEvents_eq m convId userId tenantId summary w hmemory hdocs, ?_⟩
  intro s ch summary u rid agent w outs m hscope hm
  rcases chatGen_faithful s ch summary u rid agent hscope outs with hnone | ⟨m', hm', hmatches⟩
  · have hlen := congrArg List.length (hnone.symm.trans hm)
    simp at hlen
  · obtain rfl : m' = m := by simpa using hm'.symm.trans hm
    exact hmatches

/-- An agent that finds nothing, whose stream brings one token and then breaks off. -/
def brokenAgent : AgentReplies :=
  ⟨.ok [], .ok [], .ok ⟨[⟨[some "Theo"], none⟩, ⟨[], none⟩, ⟨[some ""], none⟩], some (.other "cut")⟩⟩

/-- A stream that breaks off, and an answer that is stored. -/
theorem streaming_protocol_short :
    agentEvents (apiHandler 0 brokenAgent) "hop dong?" 1 2 3 none ApiWorld.blank =
        [.toolCall "load_memory", .toolCall "retrieve_docs", .citations [], .token "Theo", .error "cut"] ∧
      MatchesSent ⟨⟨1, .assistant, "Theo", [], none, none⟩, 1, 8⟩
        ((chatGen aBuffer aChat none 7).run (streamHandler 0 shortAgent) [] ⟨.blank, []⟩).2.sent := by
  refine ⟨?_, streaming_protocol.2 aBuffer aChat none 7 0 shortAgent .blank [] _ rfl (by decide +kernel)⟩
  exact (streaming_protocol.1 (apiHandler 0 brokenAgent) "hop dong?" 1 2 3 none .blank _ _ _ _ rfl
    rfl).trans (by decide +kernel)

end LegalRag
