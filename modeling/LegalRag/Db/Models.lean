import Mathlib.Data.Rat.Defs

/-!
# The rows of the Postgres tables

The columns that the modelled code reads or writes.  A UUID is a number, a time the reading of a clock
that moves with every call, and a score a rational.
-/

namespace LegalRag

/-- A UUID; `str(id)` is its decimal form. -/
abbrev Uuid := Nat

/-- The roles of a chat message. -/
inductive Role where
  | system
  | user
  | assistant
  | tool
  deriving DecidableEq, Repr

/-- `{"role": .., "content": ..}`, as it is kept in the buffer and sent to the model. -/
structure ChatMessage where
  role : Role
  content : String
  deriving DecidableEq, Repr

/-- One source of an answer. -/
structure Citation where
  docId : String
  chunkId : String
  docTitle : String
  headingPath : Option String
  pageFrom : Option Nat
  pageTo : Option Nat
  score : ℚ
  deriving DecidableEq, Repr

/-- A row of `conversations`. -/
structure Conversation where
  id : Uuid
  userId : Uuid
  summary : Option String
  messageCount : Nat
  deriving DecidableEq, Repr

/-- The arguments of `ConversationRepo.add_message`. -/
structure NewMessage where
  conversationId : Uuid
  role : Role
  content : String
  citations : List Citation
  tokensIn : Option Nat
  tokensOut : Option Nat
  deriving DecidableEq, Repr

/-- A row of `messages`. -/
structure Message extends NewMessage where
  id : Uuid
  createdAt : Nat
  deriving DecidableEq, Repr

/-- `{"role": m.role, "content": m.content}`. -/
def NewMessage.toChat (m : NewMessage) : ChatMessage := ⟨m.role, m.content⟩

/-- The states of a document. -/
inductive DocStatus where
  | pending
  | parsing
  | chunking
  | embedding
  | indexed
  | failed
  deriving DecidableEq, Repr

/-- The arguments of `DocumentRepo.create`. -/
structure NewDocument where
  tenantId : Uuid
  userId : Uuid
  title : String
  mimeType : String
  sizeBytes : Nat
  checksumSha256 : String
  storageKey : String
  deriving DecidableEq, Repr

/-- A row of `documents`. -/
structure Document extends NewDocument where
  id : Uuid
  status : DocStatus
  nChunks : Option Nat
  markdownKey : Option String
  error : Option String
  createdAt : Nat
  indexedAt : Option Nat
  deriving DecidableEq, Repr

/-- A row of `document_chunks`. -/
structure DocumentChunk where
  id : Uuid
  documentId : Uuid
  chunkIndex : Nat
  text : String
  nTokens : Nat
  headingPath : Option String
  pageFrom : Option Nat
  pageTo : Option Nat
  qdrantPointId : Option Uuid
  deriving DecidableEq, Repr

end LegalRag
