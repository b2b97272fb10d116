import LegalRag.Calls.Exact
import LegalRag.Memory.ChatTurns

/-!
# The event stream of a chat request

`streamHandler` keeps the events that went out to the client beside the stores.  `runAgentStream_speaks`
says in which order the agent yields: one citations event, tokens, and a `done` that carries the text of
the tokens and the citations. `agentLoop_exact` follows the loop over it: what it has gathered is what has
gone out.
-/

namespace LegalRag

open Calls Prog

/-- The stores, and the events that the client has received. -/
structure Streamed where
  api : ApiWorld
  sent : List SseEvent

/-- The event that a call sends. -/
def eventOf : ApiOp → List SseEvent
  | .send e => [e]
  | _ => []

/-- The calls of request `rid`, of which the events are kept. -/
def streamHandler (rid : Nat) (agent : AgentReplies) : Handler ApiCalls ApiErr Streamed := fun o w =>
  ((apiHandler rid agent o w.api).1, ⟨(apiHandler rid agent o w.api).2, w.sent ++ eventOf o⟩)

/-- The text of a token event. -/
def tokenData : SseEvent → Option String
  | .token d => some d
  | _ => none

/-- The data of a citations event. -/
def citationsData : SseEvent → Option (List Citation)
  | .citations cs => some cs
  | _ => none

/-! ### What the agent yields -/

/-- What the agent has yielded: its tokens, and its citations if it has come to them. -/
structure Spoken where
  text : List String
  cites : Option (List Citation)

/-- The calls of the agent's nodes and of its stream. -/
def AgentReads : ApiOp → Prop
  | .lrange .. | .retrieveUserFacts .. | .retrieveAndRerank .. | .completeStream _ => True
  | _ => False

/-- The agent reads; it yields its citations once, and at the end the text and the citations that it has
yielded. -/
def agentSpeaks : Protocol (ApiCalls.yielding AgentEvent) ApiErr Spoken where
  allows
    | _, .inl o => AgentReads o
    | φ, .inr (.citations _) => φ.cites = none
    | φ, .inr (.done answer cs _) => answer = String.join φ.text ∧ φ.cites = some cs
    | _, .inr _ => True
  replies _ _ _ := True
  next
    | φ, .inr (.token d), _ => { φ with text := φ.text ++ [d] }
    | φ, .inr (.citations cs), _ => { φ with cites := some cs }
    | φ, _, _ => φ
  failed φ _ _ := φ

section Agent

variable {φ : Spoken} {α β : Type} {post : Spoken → Except ApiErr β → Prop}

/-- A part of the agent that only calls, and the rest. -/
private theorem speaks_lift {p : Api α} {f : α → AgentGen β} (hp : p.Only AgentReads)
    (hf : ∀ a, (f a).Obeys agentSpeaks post φ) (herr : ∀ e, post φ (.error e)) :
    (lift p >>= f).Obeys agentSpeaks post φ :=
  obeys_lift_bind (fun _ ho => ⟨ho, fun _ => rfl, fun _ => rfl⟩) hp hf herr

/-- An event that the agent yields, and the rest. -/
private theorem speaks_emit {y : AgentEvent} {f : Unit → AgentGen β} (ha : agentSpeaks.allows φ (.inr y))
    (hf : (f ()).Obeys agentSpeaks post (agentSpeaks.next φ (.inr y) ())) (herr : ∀ e, post φ (.error e)) :
    (emit y >>= f).Obeys agentSpeaks post φ :=
  ⟨ha, fun _ _ => hf, herr⟩

/-- The tokens of the stream. -/
private theorem streamChunks_speaks (cs : List LlmChunk) (acc : List String × Option Usage)
    (htext : φ.text = acc.1) :
    (streamChunks cs acc).Obeys agentSpeaks (fun ψ r => ψ.cites = φ.cites ∧ ∀ a, r = .ok a →
      ψ.text = a.1) φ := by
  induction cs generalizing φ acc with
  | nil =>
    refine ⟨rfl, fun a ha => ?_⟩
    obtain rfl : acc = a := Except.ok.inj ha
    exact htext
  | cons chunk cs ih =>
    obtain ⟨fullText, usage⟩ := acc
    rw [streamChunks]
    cases deltaOf chunk with
    | none => exact ih _ htext
    | some d =>
      refine speaks_emit trivial ?_ fun e => ⟨rfl, fun _ => error_ne_ok⟩
      have htext' : φ.text = fullText := htext
      exact @ih { φ with text := φ.text ++ [d] } _ (by rw [htext'])

/-- The text of an answer is that of its tokens; after an exception nothing but the error is yielded. -/
private theorem tryStream_speaks (msgs : List ChatMessage) (htext : φ.text = []) :
    (tryStream msgs).Obeys agentSpeaks
    (fun ψ r => ψ.cites = φ.cites ∧ ∀ a, r = .ok (some a) → ψ.text = a.1) φ := by
  have hanswer : (streamAnswer msgs).Obeys agentSpeaks (fun ψ r => ψ.cites = φ.cites ∧ ∀ a, r = .ok a →
      ψ.text = a.1) φ := by
    refine speaks_lift (only_perform trivial) (fun stream => ?_) fun e => ⟨rfl, fun _ => error_ne_ok⟩
    refine obeys_bind ((streamChunks_speaks stream.chunks ([], none) htext).mono fun ψ r hr => ?_)
    cases r with
    | error e => exact ⟨hr.1, fun _ => error_ne_ok⟩
    | ok acc =>
      obtain ⟨hcites, hacc⟩ := hr
      simp only [cont_ok]
      cases stream.failure with
      | some e => exact ⟨hcites, fun _ => error_ne_ok⟩
      | none => exact ⟨hcites, hacc⟩
  unfold tryStream
  rw [map_eq_pure_bind]
  refine obeys_handle (obeys_bind (hanswer.mono fun ψ r hr => ?_))
  obtain ⟨hcites, htext⟩ := hr
  cases r with
  | ok acc =>
    refine ⟨hcites, fun a ha => ?_⟩
    obtain rfl : acc = a := Option.some.inj (Except.ok.inj ha)
    exact htext acc rfl
  | error e =>
    refine @speaks_emit ψ _ _ _ _ trivial ?_ fun e => ⟨hcites, fun _ => error_ne_ok⟩
    refine ⟨hcites, fun a ha => ?_⟩
    cases Except.ok.inj ha

private theorem loadMemoryNode_reads (st : AgentState) : (loadMemoryNode st).Only AgentReads :=
  (loadMemoryNode_follows trivial trivial).mono fun _ _ => trivial

private theorem retrieveDocsNode_reads (st : AgentState) : (retrieveDocsNode st).Only AgentReads :=
  (retrieveDocsNode_follows trivial).mono fun _ _ => trivial

/-- The agent yields in its order, and when it comes to an end it has yielded its citations. -/
theorem runAgentStream_speaks (m : String) (convId userId tenantId : Uuid) (summary : Option String) :
    (runAgentStream m convId userId tenantId summary).Obeys agentSpeaks
      (fun φ r => r = .ok () → φ.cites.isSome) ⟨[], none⟩ := by
  refine speaks_emit trivial ?_ fun e => error_ne_ok
  refine speaks_lift (loadMemoryNode_reads _) (fun st => ?_) fun e => error_ne_ok
  refine speaks_emit trivial ?_ fun e => error_ne_ok
  refine speaks_lift (retrieveDocsNode_reads _) (fun st => ?_) fun e => error_ne_ok
  refine speaks_emit rfl ?_ fun e => error_ne_ok
  refine obeys_bind ((tryStream_speaks _ rfl).mono fun ψ r hr => ?_)
  obtain ⟨hcites, htext⟩ := hr
  cases r with
  | error e => exact error_ne_ok
  | ok found =>
    cases found with
    | none => exact fun _ => hcites ▸ rfl
    | some acc =>
      obtain ⟨fullText, usage⟩ := acc
      refine ⟨⟨?_, hcites⟩, fun _ _ _ => ?_, fun _ => error_ne_ok⟩
      · exact congrArg String.join (htext _ rfl).symm
      · show ψ.cites.isSome
        rw [hcites]
        rfl

end Agent

/-! ### The loop over the agent -/

section Loop

variable {rid : Nat} {agent : AgentReplies} {A B : ApiOp → Outcome ApiErr → Prop} {inv : Streamed → Prop}
  {w₀ : ApiWorld} {c : Prop} {w : Streamed}

/-- Quiet calls leave the messages, the buffers and the sessions alone. -/
private theorem frame_world {o : ApiOp} (ho : Quiet o) (hw : frame w.api = frame w₀) (out : Outcome ApiErr) :
    frame (out.world (streamHandler rid agent) o w).api = frame w₀ := by
  rcases Outcome.world_eq (streamHandler rid agent) o w out with he | he
  · rwa [he]
  · rw [he]
    exact (frame_quiet rid agent o w.api ho).trans hw

private theorem AgentReads.quiet {o : ApiOp} (ho : AgentReads o) : Quiet o := by
  cases o <;> first | exact ho.elim | trivial

/-- What the agent reads sends nothing. -/
private theorem sent_reads {o : ApiOp} (ho : AgentReads o) (out : Outcome ApiErr) :
    (out.world (streamHandler rid agent) o w).sent = w.sent := by
  have hnone : eventOf o = [] := by
    cases o <;> first | exact ho.elim | rfl
  rcases Outcome.world_eq (streamHandler rid agent) o w out with he | he
  · rw [he]
  · rw [he]
    show w.sent ++ eventOf o = w.sent
    rw [hnone, List.append_nil]

/-- An event goes out, and a value is returned. -/
private theorem exact_send {α : Type} {e : SseEvent} {x : α} {post : Prop → Except ApiErr α → Streamed → Prop}
    (hinv : ∀ v : Streamed, frame v.api = frame w₀ → inv v) (hA : ∀ o out, Quiet o → A o out)
    (hw : frame w.api = frame w₀) (hc : c)
    (hok : ∀ c v, c → frame v.api = frame w₀ → v.sent = w.sent ++ [e] → post c (.ok x) v)
    (herr : ∀ c err v, c → frame v.api = frame w₀ → post c (.error err) v) :
    (api (.send e) >>= fun _ => (pure x : Api α)).Exact (streamHandler rid agent) A B inv post c w := by
  have hquiet : Quiet (.send e) := trivial
  refine exact_call (hinv w hw) (hinv _ (frame_world hquiet hw .ok)) (fun _ => ?_) fun err applied _ => ?_
  · have hframe := @frame_world rid agent w₀ w _ hquiet hw .ok
    exact exact_done (hinv _ hframe) (hok _ _ ⟨hc, hA _ _ hquiet⟩ hframe rfl)
  · have hframe := @frame_world rid agent w₀ w _ hquiet hw (.raised err applied)
    exact exact_done (hinv _ hframe) (herr _ err _ ⟨hc, hA _ _ hquiet⟩ hframe)

/-- What the loop has gathered is what the agent has yielded, and that is what has gone out. -/
structure Gathered (w₀ : ApiWorld) (c : Prop) (φ : Spoken) (st : GenState) (w : Streamed) : Prop where
  exact : c
  still : frame w.api = frame w₀
  answer : st.fullAnswer = String.join φ.text
  cites : st.citations = φ.cites.getD []
  tokens : w.sent.filterMap tokenData = φ.text
  citations : w.sent.filterMap citationsData = φ.cites.toList

/-- The end of the loop: nothing is stored; if the agent has been heard out, what was gathered is what has
gone out; if it was left, the client has been told. -/
structure LoopEnds (w₀ : ApiWorld) (c : Prop) (r : Except ApiErr (ForInStep GenState))
    (w : Streamed) : Prop where
  exact : c
  still : frame w.api = frame w₀
  heard : ∀ st, r = .ok (.yield st) →
    st.fullAnswer = String.join (w.sent.filterMap tokenData) ∧ w.sent.filterMap citationsData = [st.citations]
  told : ∀ st, r = .ok (.done st) → ∃ d, w.sent.getLast? = some (.error d)

private theorem loopEnds_error {e : ApiErr} (hc : c) (hw : frame w.api = frame w₀) :
    LoopEnds w₀ c (.error e) w :=
  ⟨hc, hw, fun _ => error_ne_ok, fun _ => error_ne_ok⟩

/-- The body of the loop, on an event that the agent may yield. -/
private theorem onAgentEvent_exact (hinv : ∀ v : Streamed, frame v.api = frame w₀ → inv v)
    (hA : ∀ o out, Quiet o → A o out) {φ : Spoken} {y : AgentEvent} {st : GenState}
    (ha : agentSpeaks.allows φ (.inr y)) (hw : Gathered w₀ c φ st w) :
    (onAgentEvent y st).Exact (streamHandler rid agent) A B inv (fun c r v =>
      (∀ st', r = .ok (.yield st') → agentSpeaks.replies φ (.inr y) () ∧
        Gathered w₀ c (agentSpeaks.next φ (.inr y) ()) st' v) ∧
      (∀ st', r = .ok (.done st') → LoopEnds w₀ c r v) ∧ ∀ e, r = .error e →
      LoopEnds w₀ c (.error e) v) c w := by
  have hsend : ∀ (e : SseEvent) (st' : GenState),
    (∀ c v, c → frame v.api = frame w₀ → v.sent = w.sent ++ [e] →
      Gathered w₀ c (agentSpeaks.next φ (.inr y) ()) st' v) →
      (api (.send e) >>= fun _ => (pure (.yield st') : Api (ForInStep GenState))).Exact
        (streamHandler rid agent) A B inv
        (fun c r v => (∀ st', r = .ok (.yield st') → agentSpeaks.replies φ (.inr y) () ∧
          Gathered w₀ c (agentSpeaks.next φ (.inr y) ()) st' v) ∧
        (∀ st', r = .ok (.done st') → LoopEnds w₀ c r v) ∧ ∀ e, r = .error e →
        LoopEnds w₀ c (.error e) v) c w := by
    intro e st' hok
    refine exact_send hinv hA hw.still hw.exact
      (fun c v hc hframe hsent => ⟨fun st'' h => ?_, fun _ h => ?_, fun _ h => ?_⟩)
      fun c err v hc hframe => ⟨fun _ => error_ne_ok, fun _ => error_ne_ok,
        fun e _ => loopEnds_error hc hframe⟩
    · obtain rfl : st' = st'' := ForInStep.yield.inj (Except.ok.inj h)
      exact ⟨trivial, hok c v hc hframe hsent⟩
    · cases h
    · cases h
  cases y with
  | token d =>
    refine hsend (.token d) _ fun c v hc hframe hsent => ⟨hc, hframe, ?_, hw.cites, ?_, ?_⟩
    · show st.fullAnswer ++ d = String.join (φ.text ++ [d])
      rw [hw.answer, String.join_append]
      simp
    · rw [hsent, List.filterMap_append, hw.tokens]
      rfl
    · rw [hsent, List.filterMap_append, hw.citations]
      exact List.append_nil _
  | citations cs =>
    have hnone : φ.cites = none := ha
    refine hsend (.citations cs) _ fun c v hc hframe hsent => ⟨hc, hframe, hw.answer, rfl, ?_, ?_⟩
    · rw [hsent, List.filterMap_append, hw.tokens]
      exact List.append_nil _
    · rw [hsent, List.filterMap_append, hw.citations, hnone]
      rfl
  | toolCall name =>
    refine hsend (.toolCall name) _ fun c v hc hframe hsent => ⟨hc, hframe, hw.answer, hw.cites, ?_, ?_⟩
    · rw [hsent, List.filterMap_append, hw.tokens]
      exact List.append_nil _
    · rw [hsent, List.filterMap_append, hw.citations]
      exact List.append_nil _
  | error d =>
    -- the loop is left
    refine exact_send hinv hA hw.still hw.exact
      (fun c v hc hframe hsent => ⟨fun _ h => ?_, fun st' _ => ?_, fun _ h => ?_⟩)
      fun c err v hc hframe => ⟨fun _ => error_ne_ok, fun _ => error_ne_ok,
        fun e _ => loopEnds_error hc hframe⟩
    · cases h
    · refine ⟨hc, hframe, fun _ h => ?_, fun _ _ => ⟨d, ?_⟩⟩
      · cases h
      rw [hsent, List.getLast?_append, List.getLast?_singleton]
      rfl
    · cases h
  | done answer cs usage =>
    obtain ⟨hanswer, hcites⟩ : answer = String.join φ.text ∧ φ.cites = some cs := ha
    refine exact_done (hinv w hw.still) ⟨fun st' h => ?_, fun _ h => ?_, fun _ h => ?_⟩
    · obtain rfl : ⟨answer, cs, usage⟩ = st' := ForInStep.yield.inj (Except.ok.inj h)
      have hcs : cs = φ.cites.getD [] := by
        rw [hcites]
        rfl
      exact ⟨trivial, hw.exact, hw.still, hanswer, hcs, hw.tokens, hw.citations⟩
    · cases h
    · cases h

/-- The loop over the agent, from a world in which nothing has gone out. -/
theorem agentLoop_exact (hinv : ∀ v : Streamed, frame v.api = frame w₀ → inv v)
    (hA : ∀ o out, Quiet o → A o out) (hc : c) (m : String) (convId userId tenantId : Uuid)
    (summary : Option String) :
    (forEach onAgentEvent (runAgentStream m convId userId tenantId summary) ⟨"", [], none⟩).Exact
      (streamHandler rid agent) A B inv (LoopEnds w₀) c ⟨w₀, []⟩ := by
  refine exact_forEach (J := Gathered w₀) (fun _ _ _ w hw => hinv w hw.still) ?_ ?_ ?_ ?_
    (runAgentStream_speaks m convId userId tenantId summary) ⟨hc, rfl, rfl, rfl, rfl, rfl⟩
  · intro c φ o st w ha hw out _
    have ho : AgentReads o := ha
    have hframe : frame (out.world (streamHandler rid agent) o w).api = frame w₀ :=
      frame_world ho.quiet hw.still out
    refine ⟨hinv _ hframe, fun r _ => ⟨fun _ _ => trivial, ?_⟩⟩
    have hphase : agentSpeaks.after φ (.inl o) r = φ := by cases r <;> rfl
    rw [hphase]
    refine ⟨⟨hw.exact, hA o out ho.quiet⟩, hframe, hw.answer, hw.cites, ?_, ?_⟩
    · rw [sent_reads ho]
      exact hw.tokens
    · rw [sent_reads ho]
      exact hw.citations
  · exact fun c φ y st w ha hw => onAgentEvent_exact hinv hA ha hw
  · intro c φ st w hcites hw
    refine ⟨hw.exact, hw.still, fun st' h => ?_, fun _ h => ?_⟩
    · obtain rfl : st = st' := ForInStep.yield.inj (Except.ok.inj h)
      refine ⟨?_, ?_⟩
      · rw [hw.answer, hw.tokens]
      · obtain ⟨cs, hcs⟩ := Option.isSome_iff_exists.mp (hcites rfl)
        rw [hw.citations, hw.cites, hcs]
        rfl
    · cases h
  · exact fun c φ e st w _ hw => loopEnds_error hw.exact hw.still

end Loop

end LegalRag
