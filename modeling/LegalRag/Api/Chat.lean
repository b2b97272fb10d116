import LegalRag.Agent.Graph

/-!
# The chat route

`chat_stream` of `src/api/routes/chat.py`: it stores the question, makes sure the buffer is warm, appends
the question to it, and then loops over the agent's events; when the agent is done it stores the answer,
appends it to the buffer and enqueues the extraction of facts.
-/

namespace LegalRag

open Calls

/-- A chat request: who asks what in which conversation. -/
structure ChatCall where
  convId : Uuid
  userId : Uuid
  tenantId : Uuid
  message : String
  deriving DecidableEq, Repr

/-- The variables of `gen`. -/
structure GenState where
  fullAnswer : String
  citations : List Citation
  usage : Option Usage

/-- The body of the loop over the agent's events. -/
def onAgentEvent (evt : AgentEvent) (st : GenState) : Api (ForInStep GenState) :=
  match evt with
  | .token d => do
    api (.send (.token d))
    return .yield { st with fullAnswer := st.fullAnswer ++ d }
  | .citations cs => do
    api (.send (.citations cs))
    return .yield { st with citations := cs }
  | .toolCall name => do
    api (.send (.toolCall name))
    return .yield st
  | .error d => do
    api (.send (.error d))
    return .done st
  | .done answer cs usage => return .yield ⟨answer, cs, usage⟩

/-- The extraction of facts is enqueued, where a failure is only logged, and the client hears that all is
done. -/
def finishAnswer (c : ChatCall) (userMsgId : Uuid) (st : GenState) : Api Unit := do
  tryCatch (do let _ ← api (.enqueueJob "extract_facts" (toString c.convId))) fun _ => pure ()
  api (.send (.done userMsgId st.citations st.usage))

/-- The answer is stored and appended to the buffer. -/
def persistAnswer (s : BufferSettings) (c : ChatCall) (userMsgId : Uuid) (st : GenState) : Api Unit := do
  let _ ← api (.addMessage .scope ⟨c.convId, .assistant, st.fullAnswer, st.citations,
    st.usage.map Usage.promptTokens, st.usage.map Usage.completionTokens⟩)
  api (.commit .scope)
  appendMessage s c.convId .assistant st.fullAnswer
  finishAnswer c userMsgId st

/-- The part of `gen` inside its `try`. -/
def streamEvents (s : BufferSettings) (c : ChatCall) (summary : Option String) (userMsgId : Uuid) :
    Api Unit := do
  match ← Prog.forEach onAgentEvent (runAgentStream c.message c.convId c.userId c.tenantId summary)
    ⟨"", [], none⟩ with
  | .done _ => pure ()
  | .yield st => persistAnswer s c userMsgId st

/-- `gen`. -/
def chatGen (s : BufferSettings) (c : ChatCall) (summary : Option String) (userMsgId : Uuid) : Api Unit :=
  tryCatch (streamEvents s c summary userMsgId) fun e => api (.send (.error e.str))

/-- If the buffer is empty, it is warmed from Postgres. -/
def ensureBuffer (s : BufferSettings) (convId : Uuid) : Api Unit := do
  let buf ← getBuffer convId
  if buf.isEmpty then
    let msgs ← api (.recentMessages .request convId 20)
    warmupFromDb s convId (msgs.map (·.toChat))
  else pure ()

/-- A turn of a conversation that belongs to the user. -/
def chatTurn (s : BufferSettings) (c : ChatCall) (summary : Option String) : Api Unit := do
  let userMsg ← api (.addMessage .request ⟨c.convId, .user, c.message, [], none, none⟩)
  api (.commit .request)
  ensureBuffer s c.convId
  appendMessage s c.convId .user c.message
  api .getArqPool
  chatGen s c summary userMsg.id

/-- `chat_stream`, its response included. -/
def chatStream (s : BufferSettings) (c : ChatCall) : Api Unit := do
  match ← api (.getConversation .request c.convId c.userId) with
  | none => throw (.http 404 "conversation not found")
  | some conv => chatTurn s c conv.summary

end LegalRag
