import LegalRag.Calls.Generator
import LegalRag.Db.Models
import LegalRag.Ingestion.Chunker

/-!
# What an ingestion job calls

The statements of a Postgres session, Redis, MinIO, the parser, the embedding model and Qdrant, as the
worker's `process_document` uses them.
-/

namespace LegalRag

open Calls

/-- An exception, or the cancellation of the coroutine, which `except Exception` lets through. -/
inductive JobErr where
  | exception (text : String)
  | cancelled
  deriving DecidableEq, Repr

/-- The values of an UPDATE by `set_status`; what is absent keeps its value. -/
structure StatusUpdate where
  status : DocStatus
  error : Option String
  nChunks : Option Nat
  markdownKey : Option String
  indexedAt : Option Nat
  deriving DecidableEq, Repr

/-- The data of a `status` event. -/
structure StatusEvent where
  status : DocStatus
  nChunks : Option Nat
  error : Option String
  deriving DecidableEq, Repr

abbrev Embedding := List ℚ

/-- A Qdrant point, with its payload. -/
structure Point where
  id : Uuid
  vector : Embedding
  tenantId : String
  userId : String
  docId : String
  docTitle : String
  chunkIndex : Nat
  headingPath : Option String
  pageFrom : Option Nat
  pageTo : Option Nat
  text : String
  nTokens : Nat
  deriving DecidableEq, Repr

inductive JobOp where
  /-- A session is opened. -/
  | openSession
  | getInternal (docId : Uuid)
  | updateDocument (docId : Uuid) (u : StatusUpdate)
  /-- `add_all` and the INSERT of the flush. -/
  | insertChunks (rows : List DocumentChunk)
  | commit
  | rollback
  | now
  | uuid4
  | publish (channel : String) (e : StatusEvent)
  | getObject (key : String)
  | putObject (key : String) (data : List UInt8) (contentType : String)
  | parseFile (data : List UInt8) (mimeType filename : String)
  | embed (texts : List String)
  | deletePoints (docId : String)
  | upsert (points : List Point)
  deriving DecidableEq, Repr

@[reducible] def JobOp.Resp : JobOp → Type
  | .getInternal _ => Option Document
  | .now | .uuid4 => Nat
  | .getObject _ => List UInt8
  | .parseFile .. => ParseResult
  | .embed _ => List Embedding
  | .openSession | .updateDocument .. | .insertChunks _ | .commit | .rollback | .publish .. | .putObject ..
  | .deletePoints _ | .upsert _ => Unit

abbrev JobCalls : Iface := ⟨JobOp, JobOp.Resp⟩

/-- A program of the worker. -/
abbrev JobProg (α : Type) := Prog JobCalls JobErr α

/-- A call of the worker. -/
abbrev job (o : JobCalls.Op) : JobProg (JobCalls.Resp o) := Prog.perform o

/-- `except Exception`. -/
def exceptException {α : Type} (p : JobProg α) (h : String → JobProg α) : JobProg α :=
  tryCatch p fun
    | .exception text => h text
    | .cancelled => throw .cancelled

end LegalRag
