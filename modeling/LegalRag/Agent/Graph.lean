import LegalRag.Memory.ShortTerm
import LegalRag.Agent.Prompts
import LegalRag.Calls.Effects

/-!
# The streaming agent

`src/agent/graph.py` and its memory and retrieval nodes.  `runAgentStream` is a generator: it loads the
buffer and the facts, retrieves, assembles the prompt, and yields the tokens of the model's stream as they
come.  An exception of the stream ends it with an `error` event; one of a node is raised to the loop over
it.  `runAgentStream_follows` lists the calls it makes.
-/

namespace LegalRag

open Calls

/-- The events of the agent. -/
inductive AgentEvent where
  | toolCall (name : String)
  | citations (data : List Citation)
  | token (data : String)
  | error (data : String)
  | done (answer : String) (citations : List Citation) (usage : Option Usage)
  deriving DecidableEq, Repr

/-- A part of the agent's generator. -/
abbrev AgentGen (α : Type) := Prog (ApiCalls.yielding AgentEvent) ApiErr α

/-- The fields of `AgentState` that the nodes read and write. -/
structure AgentState where
  userMessage : String
  conversationId : Uuid
  userId : Uuid
  tenantId : Uuid
  summary : Option String
  shortTermHistory : List ChatMessage
  longTermFacts : List Fact
  retrieved : List RetrievedDoc
  citations : List Citation

/-- `load_memory_node`. -/
def loadMemoryNode (state : AgentState) : Api AgentState := do
  let buf ← getBuffer state.conversationId
  let facts ← api (.retrieveUserFacts state.userId state.userMessage 5)
  return { state with shortTermHistory := buf, longTermFacts := facts }

/-- `retrieve_docs_node`. -/
def retrieveDocsNode (state : AgentState) : Api AgentState := do
  let chunks ← api (.retrieveAndRerank state.userMessage state.tenantId state.userId 20 5 true)
  return { state with retrieved := chunks, citations := chunks.map (·.toCitation) }

/-- `chunk.choices[0].delta.content`, unless there is no choice or nothing in it. -/
def deltaOf (c : LlmChunk) : Option String := (c.choices.head?.join).filter fun d => ¬ d.isEmpty

/-- The usage that a chunk carries, a missing count being 0. -/
def ChunkUsage.total (u : ChunkUsage) : Usage :=
  ⟨u.promptTokens.getD 0, u.completionTokens.getD 0, u.totalTokens.getD 0⟩

/-- `async for chunk in llm.complete_stream(..)`: the text so far and the last usage seen. -/
def streamChunks : List LlmChunk → List String × Option Usage → AgentGen (List String × Option Usage)
  | [], acc => pure acc
  | c :: cs, (fullText, usage) =>
    let usage := (c.usage.map ChunkUsage.total).or usage
    match deltaOf c with
    | some d => Prog.emit (.token d) >>= fun _ => streamChunks cs (fullText ++ [d], usage)
    | none => streamChunks cs (fullText, usage)

/-- The part of `run_agent_stream` inside its `try`. -/
def streamAnswer (msgs : List ChatMessage) : AgentGen (List String × Option Usage) := do
  let stream ← Prog.lift (api (.completeStream msgs))
  let acc ← streamChunks stream.chunks ([], none)
  match stream.failure with
  | some e => throw e
  | none => pure acc

/-- The `try` of `run_agent_stream`: nothing after an exception, which is yielded as an event. -/
def tryStream (msgs : List ChatMessage) : AgentGen (Option (List String × Option Usage)) :=
  tryCatch (some <$> streamAnswer msgs) fun e => do
    Prog.emit (.error e.str)
    pure none

/-- `run_agent_stream`. -/
def runAgentStream (userMessage : String) (conversationId userId tenantId : Uuid) (summary : Option String) :
    AgentGen Unit := do
  let state : AgentState := ⟨userMessage, conversationId, userId, tenantId, summary, [], [], [], []⟩
  Prog.emit (.toolCall "load_memory")
  let state ← Prog.lift (loadMemoryNode state)
  Prog.emit (.toolCall "retrieve_docs")
  let state ← Prog.lift (retrieveDocsNode state)
  Prog.emit (.citations state.citations)
  let msgs := buildAnswerMessages userMessage state.shortTermHistory state.summary state.longTermFacts
    state.retrieved
  match ← tryStream msgs with
  | none => pure ()
  | some (fullText, usage) => Prog.emit (.done (String.join fullText) state.citations usage)

/-! ### The calls of the agent -/

section Calls

variable {P : ApiOp → Prop} {R : (o : ApiOp) → o.Resp → Prop}

private theorem streamChunks_follows (cs : List LlmChunk) (acc : List String × Option Usage) :
    (streamChunks cs acc).Follows (Prog.ownReply R) (Prog.own P) fun _ => True := by
  induction cs generalizing acc with
  | nil => trivial
  | cons chunk cs ih =>
    obtain ⟨fullText, usage⟩ := acc
    rw [streamChunks]
    cases deltaOf chunk with
    | none => exact ih _
    | some d => exact Prog.follows_bind (Prog.follows_emit _ (ih _))

private theorem tryStream_follows {msgs : List ChatMessage} (h : P (.completeStream msgs)) :
    (tryStream msgs).Follows (Prog.ownReply R) (Prog.own P) fun _ => True := by
  have hanswer : (streamAnswer msgs).Follows (Prog.ownReply R) (Prog.own P) fun _ => True := by
    refine Prog.follows_bind (Prog.follows_lift ((Prog.follows_perform h).mono fun stream _ => ?_))
    refine Prog.follows_bind ((streamChunks_follows _ _).mono fun acc _ => ?_)
    cases stream.failure <;> trivial
  refine Prog.follows_handle ?_ fun e => Prog.follows_bind (Prog.follows_emit _ trivial)
  rw [map_eq_pure_bind]
  exact Prog.follows_bind (hanswer.mono fun _ _ => trivial)

theorem loadMemoryNode_follows {st : AgentState} (hbuf : P (.lrange (bufKey st.conversationId) 0 (-1)))
    (hfacts : P (.retrieveUserFacts st.userId st.userMessage 5)) :
    (loadMemoryNode st).Follows R P fun st' => ∃ history facts,
      R (.lrange (bufKey st.conversationId) 0 (-1)) history ∧
        st' = { st with shortTermHistory := history, longTermFacts := facts } := by
  have heq : loadMemoryNode st = .call (.lrange (bufKey st.conversationId) 0 (-1)) (Prog.cont fun history =>
      .call (.retrieveUserFacts st.userId st.userMessage 5) (Prog.cont fun facts =>
        .done (.ok { st with shortTermHistory := history, longTermFacts := facts }))) := rfl
  rw [heq]
  exact ⟨hbuf, fun history hh => ⟨hfacts, fun facts _ => ⟨history, facts, hh, rfl⟩, fun _ => trivial⟩,
    fun _ => trivial⟩

theorem retrieveDocsNode_follows {st : AgentState}
    (hdocs : P (.retrieveAndRerank st.userMessage st.tenantId st.userId 20 5 true)) :
    (retrieveDocsNode st).Follows R P fun st' => ∃ chunks : List RetrievedDoc,
      st' = { st with retrieved := chunks, citations := chunks.map (·.toCitation) } := by
  have heq : retrieveDocsNode st =
    .call (.retrieveAndRerank st.userMessage st.tenantId st.userId 20 5 true)
      (Prog.cont fun chunks : List RetrievedDoc =>
        .done (.ok { st with retrieved := chunks, citations := chunks.map (·.toCitation) })) := rfl
  rw [heq]
  exact ⟨hdocs, fun chunks _ => ⟨chunks, rfl⟩, fun _ => trivial⟩

/-- The agent reads the buffer, the facts and the documents, and sends the model the prompt made of them.
-/
theorem runAgentStream_follows {m : String} {convId userId tenantId : Uuid} {summary : Option String}
    (hbuf : P (.lrange (bufKey convId) 0 (-1))) (hfacts : P (.retrieveUserFacts userId m 5))
    (hdocs : P (.retrieveAndRerank m tenantId userId 20 5 true))
    (hprompt : ∀ history facts retrieved, R (.lrange (bufKey convId) 0 (-1)) history →
      P (.completeStream (buildAnswerMessages m history summary facts retrieved))) :
    (runAgentStream m convId userId tenantId summary).Follows (Prog.ownReply R) (Prog.own P) fun _ =>
    True := by
  have hload := @loadMemoryNode_follows P R ⟨m, convId, userId, tenantId, summary, [], [], [], []⟩ hbuf hfacts
  refine Prog.follows_bind (Prog.follows_emit _ ?_)
  refine Prog.follows_bind (Prog.follows_lift (hload.mono fun st hst => ?_))
  obtain ⟨history, facts, hhistory, rfl⟩ := hst
  refine Prog.follows_bind (Prog.follows_emit _ ?_)
  refine Prog.follows_bind (Prog.follows_lift ((retrieveDocsNode_follows hdocs).mono fun st hst => ?_))
  obtain ⟨retrieved, rfl⟩ := hst
  refine Prog.follows_bind (Prog.follows_emit _ ?_)
  refine Prog.follows_bind ((tryStream_follows (hprompt history facts retrieved hhistory)).mono fun r _ => ?_)
  cases r with
  | none => trivial
  | some acc => exact Prog.follows_emit _ trivial

end Calls

end LegalRag
