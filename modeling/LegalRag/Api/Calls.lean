import LegalRag.Calls.Generator
import LegalRag.Db.Models

/-!
# What the API process calls

The operations of the request handlers of `src/api/routes/files.py` and `src/api/routes/chat.py` outside
their own process: the statements of a Postgres session, Redis, MinIO, the job queue, the agent's
retrieval and the language model, and the events of an SSE response.
-/

namespace LegalRag

open Calls

/-- The two sessions of a request: the one it gets by dependency, and the one of a `session_scope` block.
-/
inductive SessionRef where
  | request
  | scope
  deriving DecidableEq, Repr

/-- One command of a pipeline on a buffer key. -/
inductive BufferCmd where
  | delete (key : String)
  | rpush (key : String) (m : ChatMessage)
  | ltrim (key : String) (start stop : Int)
  | expire (key : String) (seconds : Nat)
  deriving DecidableEq, Repr

/-- A fact about the user, with the fields the prompt reads. -/
structure Fact where
  key : Option String
  value : Option String
  deriving DecidableEq, Repr

/-- A chunk that the retrieval returns. -/
structure RetrievedDoc extends Citation where
  text : String
  deriving DecidableEq, Repr

/-- `usage` of a chunk of the stream; a provider may leave a count out. -/
structure ChunkUsage where
  promptTokens : Option Nat
  completionTokens : Option Nat
  totalTokens : Option Nat
  deriving DecidableEq, Repr

/-- A chunk of the stream: the contents of the deltas of its choices, and its usage. -/
structure LlmChunk where
  choices : List (Option String)
  usage : Option ChunkUsage
  deriving DecidableEq, Repr

/-- What the agent counts of a whole answer. -/
structure Usage where
  promptTokens : Nat
  completionTokens : Nat
  totalTokens : Nat
  deriving DecidableEq, Repr

/-- The events of the SSE response of a chat request. -/
inductive SseEvent where
  | token (data : String)
  | citations (data : List Citation)
  | toolCall (name : String)
  | error (data : String)
  | done (userMessageId : Uuid) (citations : List Citation) (usage : Option Usage)
  deriving DecidableEq, Repr

/-- An `HTTPException`, or any other exception with its text. -/
inductive ApiErr where
  | http (status : Nat) (detail : String)
  | other (text : String)
  deriving DecidableEq, Repr

/-- `str(e)`. -/
def ApiErr.str : ApiErr → String
  | .http status detail => toString status ++ ": " ++ detail
  | .other text => text

/-- A stream of the language model: its chunks, and the exception that ends it early. -/
structure LlmStream where
  chunks : List LlmChunk
  failure : Option ApiErr
  deriving DecidableEq, Repr

/-- The calls of the API process. -/
inductive ApiOp where
  /-- `ConversationRepo.get`. -/
  | getConversation (s : SessionRef) (convId userId : Uuid)
  /-- `ConversationRepo.add_message`: the INSERT of its flush. -/
  | addMessage (s : SessionRef) (m : NewMessage)
  /-- `ConversationRepo.recent_messages`. -/
  | recentMessages (s : SessionRef) (convId : Uuid) (n : Nat)
  /-- `DocumentRepo.by_checksum`. -/
  | byChecksum (s : SessionRef) (tenantId : Uuid) (checksum : String)
  /-- `DocumentRepo.create`: the INSERT of its flush. -/
  | createDocument (s : SessionRef) (d : NewDocument)
  | flush (s : SessionRef)
  | commit (s : SessionRef)
  | uuid4
  | putObject (key : String) (data : List UInt8) (contentType : String)
  | getArqPool
  | enqueueJob (function arg : String)
  | lrange (key : String) (start stop : Int)
  | pipeline (cmds : List BufferCmd)
  | retrieveUserFacts (userId : Uuid) (query : String) (topK : Nat)
  | retrieveAndRerank (query : String) (tenantId userId : Uuid) (topKSearch topKFinal : Nat) (rewrite : Bool)
  | completeStream (messages : List ChatMessage)
  /-- An event goes out to the client. -/
  | send (event : SseEvent)
  deriving DecidableEq, Repr

/-- What each call returns. -/
@[reducible] def ApiOp.Resp : ApiOp → Type
  | .getConversation .. => Option Conversation
  | .addMessage .. => Message
  | .recentMessages .. => List Message
  | .byChecksum .. => Option Document
  | .createDocument .. => Document
  | .uuid4 => Uuid
  | .enqueueJob .. => Option Uuid
  | .lrange .. => List ChatMessage
  | .retrieveUserFacts .. => List Fact
  | .retrieveAndRerank .. => List RetrievedDoc
  | .completeStream _ => LlmStream
  | .flush _ | .commit _ | .putObject .. | .getArqPool | .pipeline _ | .send _ => Unit

/-- The interface of the API process. -/
abbrev ApiCalls : Iface := ⟨ApiOp, ApiOp.Resp⟩

/-- A program of the API process. -/
abbrev Api (α : Type) := Prog ApiCalls ApiErr α

/-- A call of the API process. -/
abbrev api (o : ApiCalls.Op) : Api (ApiCalls.Resp o) := Prog.perform o

/-- `a or b` for an optional text: an absent text counts as false, and so does an empty one. -/
def orText (a : Option String) (b : String) : String := (a.filter fun t => ¬ t.isEmpty).getD b

/-- `content or "{}"`. -/
def replyBody (content : Option String) : String := orText content "\x7b\x7d"

end LegalRag
