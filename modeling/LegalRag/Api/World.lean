import LegalRag.Api.Chat
import LegalRag.Api.Files
import Mathlib.Data.List.Sort

/-!
# The stores behind the API

Postgres, Redis, MinIO and the job queue as the calls of the API process find them (`apiHandler`).  A
session sees the committed rows and its own; a transaction begins with the first statement, its time is
the `created_at` of the rows it inserts, and its rows become visible at its commit.  The retrieval and the
language model answer as the request's `AgentReplies` say.
-/

namespace LegalRag

open Calls Redis

/-- A session: when its transaction began, the conversation it has loaded, and the rows it has not yet
committed. -/
structure Session where
  begun : Option Nat
  conv : Option Conversation
  newMessages : List Message
  newDocuments : List Document

/-- A new session. -/
def Session.fresh : Session := ⟨none, none, [], []⟩

/-- A job of the queue. -/
structure Job where
  id : Uuid
  function : String
  arg : String
  deriving DecidableEq, Repr

/-- A pool made by `create_pool`. -/
structure ArqPool where
  defaultQueueName : String
  deriving DecidableEq, Repr

/-- `create_pool(redis_settings)`: the queue name that arq takes when none is given. -/
def createPool : ArqPool := ⟨"arq:queue"⟩

/-- The queues of the broker, the jobs that run and those that a worker has picked up. -/
structure Broker where
  queues : String → List Job
  running : List Job
  picked : List Job

/-- Everything the API process calls. -/
structure ApiWorld where
  clock : Nat
  nextUuid : Uuid
  conversations : List Conversation
  messages : List Message
  documents : List Document
  sessions : Nat → SessionRef → Session
  objects : String → Option (List UInt8)
  buffers : String → List ChatMessage
  arqPool : Option ArqPool
  broker : Broker

/-- What the agent's calls reply during one request. -/
structure AgentReplies where
  facts : Except ApiErr (List Fact)
  retrieved : Except ApiErr (List RetrievedDoc)
  stream : Except ApiErr LlmStream

/-- What the agent's calls reply to a request that makes none. -/
def AgentReplies.none : AgentReplies := ⟨.error (.other ""), .error (.other ""), .error (.other "")⟩

namespace ApiWorld

variable (rid : Nat) (ref : SessionRef)

/-- A request begins with new sessions. -/
def openSessions (w : ApiWorld) : ApiWorld :=
  { w with sessions := Function.update w.sessions rid fun _ => Session.fresh }

/-- Time passes. -/
def tick (w : ApiWorld) : ApiWorld := { w with clock := w.clock + 1 }

/-- Change a session of a request. -/
def setSession (f : Session → Session) (w : ApiWorld) : ApiWorld :=
  { w with
    sessions := Function.update w.sessions rid (Function.update (w.sessions rid) ref (f (w.sessions rid ref))) }

/-- The time of the session's transaction, which begins now unless it has begun. -/
def txTime (w : ApiWorld) : Nat := (w.sessions rid ref).begun.getD w.clock

/-- The session after a statement. -/
def touch (w : ApiWorld) : ApiWorld :=
  w.setSession rid ref fun s => { s with begun := some (w.txTime rid ref) }

/-- The messages the session sees, the newest first. -/
def newestFirst (convId : Uuid) (w : ApiWorld) : List Message :=
  ((w.messages ++ (w.sessions rid ref).newMessages).filter (·.conversationId = convId)).insertionSort
    fun a b => b.createdAt ≤ a.createdAt

/-- The newest `n` messages that the session sees, the oldest of them first. -/
def recentMessages (convId : Uuid) (n : Nat) (w : ApiWorld) : List Message :=
  ((w.newestFirst rid ref convId).take n).reverse

/-- The conversation of the session: the one it has loaded, or the committed row. -/
def loadConversation (convId : Uuid) (w : ApiWorld) : Option Conversation :=
  ((w.sessions rid ref).conv.filter (·.id = convId)).or (w.conversations.find? (·.id = convId))

/-- The row that `add_message` inserts. -/
def messageRow (m : NewMessage) (w : ApiWorld) : Message :=
  { m with id := w.nextUuid, createdAt := w.txTime rid ref }

/-- The row that `DocumentRepo.create` inserts. -/
def documentRow (d : NewDocument) (w : ApiWorld) : Document :=
  { d with id := w.nextUuid, status := .pending, nChunks := none, markdownKey := none, error := none,
           createdAt := w.txTime rid ref, indexedAt := none }

/-- The unique constraint of `documents`. -/
def clashes (d : NewDocument) (rows : List Document) : Bool :=
  rows.any fun r => r.tenantId = d.tenantId ∧ r.checksumSha256 = d.checksumSha256

/-- The statements of the session become visible. -/
def applyCommit (w : ApiWorld) : ApiWorld :=
  let s := w.sessions rid ref
  { w with
    messages := w.messages ++ s.newMessages
    documents := w.documents ++ s.newDocuments
    conversations := match s.conv with
      | some c =>
        w.conversations.map fun row =>
          if row.id = c.id then { row with messageCount := c.messageCount } else row
      | none => w.conversations }

end ApiWorld

/-- One command of a pipeline on the buffers; the lifetime of a key is left to the runs. -/
def BufferCmd.exec (w : String → List ChatMessage) : BufferCmd → String → List ChatMessage
  | .delete key => Function.update w key []
  | .rpush key m => Function.update w key (w key ++ [m])
  | .ltrim key start stop => Function.update w key (Redis.ltrim start stop (w key))
  | .expire _ _ => w

/-- `enqueue_job` puts the job into the default queue of the pool. -/
def Broker.enqueue (queueName : String) (job : Job) (b : Broker) : Broker :=
  { b with queues := Function.update b.queues queueName (b.queues queueName ++ [job]) }

/-- The reply to a call of request `rid`, and what it changes; every call takes time. -/
def apiReply (rid : Nat) (agent : AgentReplies) :
    (o : ApiCalls.Op) → ApiWorld → Except ApiErr (ApiCalls.Resp o) × ApiWorld
  | .getConversation ref convId userId, w =>
    let conv := w.conversations.find? fun c => c.id = convId ∧ c.userId = userId
    (.ok conv, (w.touch rid ref).setSession rid ref fun s => { s with conv := conv.or s.conv })
  | .addMessage ref m, w =>
    let conv := (w.loadConversation rid ref m.conversationId).map fun c =>
      { c with messageCount := c.messageCount + 1 }
    let row := w.messageRow rid ref m
    (.ok row, { (w.touch rid ref).setSession rid ref (fun s =>
      { s with conv := conv.or s.conv, newMessages := s.newMessages ++ [row] })
      with nextUuid := w.nextUuid + 1 })
  | .recentMessages ref convId n, w => (.ok (w.recentMessages rid ref convId n), w.touch rid ref)
  | .byChecksum ref tenantId checksum, w =>
    (.ok ((w.documents ++ (w.sessions rid ref).newDocuments).find? fun d =>
      d.tenantId = tenantId ∧ d.checksumSha256 = checksum), w.touch rid ref)
  | .createDocument ref d, w =>
    if ApiWorld.clashes d (w.documents ++ (w.sessions rid ref).newDocuments) then
      (.error (.other "uq_doc_checksum_per_tenant"), w.touch rid ref)
    else
      let row := w.documentRow rid ref d
      (.ok row, { (w.touch rid ref).setSession rid ref (fun s =>
        { s with newDocuments := s.newDocuments ++ [row] }) with nextUuid := w.nextUuid + 1 })
  | .flush ref, w => (.ok (), w.touch rid ref)
  | .commit ref, w =>
    -- an insert that waited for another transaction fails here, if that one has committed the same
    -- document
    if (w.sessions rid ref).newDocuments.any fun d => ApiWorld.clashes d.toNewDocument w.documents then
      (.error (.other "uq_doc_checksum_per_tenant"), w.setSession rid ref fun _ => Session.fresh)
    else
      (.ok (), (w.applyCommit rid ref).setSession rid ref fun s =>
        { s with begun := none, newMessages := [], newDocuments := [] })
  | .uuid4, w => (.ok w.nextUuid, { w with nextUuid := w.nextUuid + 1 })
  | .putObject key data _, w => (.ok (), { w with objects := Function.update w.objects key (some data) })
  | .getArqPool, w => (.ok (), { w with arqPool := some (w.arqPool.getD createPool) })
  | .enqueueJob function arg, w =>
    match w.arqPool with
    | none => (.error (.other "no pool"), w)
    | some pool =>
      (.ok (some w.nextUuid), { w with
        broker := w.broker.enqueue pool.defaultQueueName ⟨w.nextUuid, function, arg⟩
        nextUuid := w.nextUuid + 1 })
  | .lrange key start stop, w => (.ok (lrange start stop (w.buffers key)), w)
  | .pipeline cmds, w => (.ok (), { w with buffers := cmds.foldl BufferCmd.exec w.buffers })
  | .retrieveUserFacts .., w => (agent.facts, w)
  | .retrieveAndRerank .., w => (agent.retrieved, w)
  | .completeStream _, w => (agent.stream, w)
  | .send _, w => (.ok (), w)

/-- The calls of request `rid`. -/
def apiHandler (rid : Nat) (agent : AgentReplies) : Handler ApiCalls ApiErr ApiWorld := fun o w =>
  ((apiReply rid agent o w).1, (apiReply rid agent o w).2.tick)

/-- No request, no row, no object. -/
def ApiWorld.blank : ApiWorld :=
  ⟨0, 1, [], [], [], fun _ _ => Session.fresh, fun _ => none, fun _ => [], none, ⟨fun _ => [], [], []⟩⟩

end LegalRag
