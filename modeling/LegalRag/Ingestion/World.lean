import LegalRag.Calls.Crash
import LegalRag.Calls.Service
import LegalRag.Db.Table
import LegalRag.Ingestion.Process

/-!
# The stores behind the worker

Postgres, Qdrant and MinIO (`Stores`), and what each execution of a job has read, has pending in its
transaction and has committed.  A transaction takes effect at its commit, all of it or nothing.  What the
parser and the embedding model reply, and the time, are given for each execution (`JobReplies`).
-/

namespace LegalRag

open Calls Relational

/-- The primary key of `documents`. -/
def Document.key (d : Document) : Uuid := d.id

/-- `uq_chunk_doc_idx`. -/
def DocumentChunk.key (r : DocumentChunk) : Uuid × Nat := (r.documentId, r.chunkIndex)

/-- The row fits its columns. -/
def DocumentChunk.fits (r : DocumentChunk) : Bool := r.headingPath.all (·.length ≤ 1024)

/-- What outlives a worker. -/
structure Stores where
  documents : Table Document.key
  chunks : Table DocumentChunk.key
  points : List Point
  objects : String → Option (List UInt8)
  nextUuid : Uuid

/-- A statement of a transaction. -/
inductive Stmt where
  | updateDocument (docId : Uuid) (u : StatusUpdate)
  | insertChunks (rows : List DocumentChunk)
  deriving DecidableEq, Repr

/-- What an execution of a job has read, has pending and has committed. -/
structure Execution where
  loaded : Option Document
  pending : List Stmt
  committed : List Stmt
  deriving DecidableEq, Repr

def Execution.start : Execution := ⟨none, [], []⟩

structure JobWorld where
  stores : Stores
  executions : Nat → Execution
  published : List (String × StatusEvent)

/-- What is outside the stores replies to one execution. -/
structure JobReplies where
  clock : Nat
  parse : List UInt8 → String → String → Except JobErr ParseResult
  embed : List String → Except JobErr (List Embedding)

/-- `UPDATE documents SET ..` on one row. -/
def StatusUpdate.apply (docId : Uuid) (u : StatusUpdate) (d : Document) : Document :=
  if d.id = docId then
    { d with
      status := u.status
      error := u.error.or d.error
      nChunks := u.nChunks.or d.nChunks
      markdownKey := u.markdownKey.or d.markdownKey
      indexedAt := u.indexedAt.or d.indexedAt }
  else d

theorem StatusUpdate.apply_key (docId : Uuid) (u : StatusUpdate) (d : Document) :
    (u.apply docId d).key = d.key := by
  unfold StatusUpdate.apply
  split <;> rfl

namespace Stores

/-- An UPDATE of a document. -/
def update (docId : Uuid) (u : StatusUpdate) (s : Stores) : Stores :=
  { s with documents := s.documents.update (u.apply docId) (u.apply_key docId) }

/-- The effect of a statement; `none` if it violates a constraint. -/
def applyStmt (s : Stores) : Stmt → Option Stores
  | .updateDocument docId u => some (s.update docId u)
  | .insertChunks rows =>
    if rows.all fun r => r.fits && s.documents.rows.any fun d => d.id = r.documentId then
      (s.chunks.insert? rows).map fun t => { s with chunks := t }
    else none

/-- The effect of the statements of a transaction. -/
def applyAll (s : Stores) : List Stmt → Option Stores
  | [] => some s
  | st :: sts => (s.applyStmt st).bind fun s' => s'.applyAll sts

/-- A point replaces the one with its id. -/
def upsert (points : List Point) (s : Stores) : Stores :=
  { s with points := s.points.filter (fun p => ¬ points.any fun q => q.id = p.id) ++ points }

/-- The object with a key. -/
def fetch (key : String) (s : Stores) : Except JobErr (List UInt8) :=
  match s.objects key with
  | some data => .ok data
  | none => .error (.exception "NoSuchKey")

def put (key : String) (data : List UInt8) (s : Stores) : Stores :=
  { s with objects := Function.update s.objects key (some data) }

def deletePoints (docId : String) (s : Stores) : Stores :=
  { s with points := s.points.filter (·.docId ≠ docId) }

end Stores

namespace JobWorld

/-- A job begins. -/
def begin (pid : Nat) (w : JobWorld) : JobWorld :=
  { w with executions := Function.update w.executions pid Execution.start }

/-- Change the record of an execution. -/
def setExecution (pid : Nat) (e : Execution) (w : JobWorld) : JobWorld :=
  { w with executions := Function.update w.executions pid e }

/-- A statement is added to the transaction of an execution, if the tables accept it. -/
def statement (pid : Nat) (st : Stmt) (w : JobWorld) : Except JobErr Unit × JobWorld :=
  let e := w.executions pid
  match w.stores.applyAll (e.pending ++ [st]) with
  | none => (.error (.exception "IntegrityError"), w)
  | some _ => (.ok (), w.setExecution pid { e with pending := e.pending ++ [st] })

/-- The stores change at the commit only. -/
theorem statement_stores (pid : Nat) (st : Stmt) (w : JobWorld) : (w.statement pid st).2.stores = w.stores := by
  simp only [statement]
  split <;> rfl

end JobWorld

/-- The reply to a call of the execution `pid`, and what it changes. -/
def jobReply (pid : Nat) (env : JobReplies) : (o : JobCalls.Op) → JobWorld →
    Except JobErr (JobCalls.Resp o) × JobWorld
  | .openSession, w => (.ok (), w.setExecution pid { w.executions pid with pending := [] })
  | .getInternal docId, w =>
    let doc := w.stores.documents.rows.find? fun d => d.key = docId
    (.ok doc, w.setExecution pid { w.executions pid with loaded := doc })
  | .updateDocument docId u, w => w.statement pid (.updateDocument docId u)
  | .insertChunks rows, w => w.statement pid (.insertChunks rows)
  | .commit, w =>
    let e := w.executions pid
    match w.stores.applyAll e.pending with
    | none => (.error (.exception "IntegrityError"), w)
    | some s =>
      (.ok (), { w.setExecution pid { e with pending := [], committed := e.committed ++ e.pending } with
        stores := s })
  | .rollback, w => (.ok (), w.setExecution pid { w.executions pid with pending := [] })
  | .now, w => (.ok env.clock, w)
  | .uuid4, w =>
    (.ok w.stores.nextUuid, { w with stores := { w.stores with nextUuid := w.stores.nextUuid + 1 } })
  | .publish channel e, w => (.ok (), { w with published := w.published ++ [(channel, e)] })
  | .getObject key, w => (w.stores.fetch key, w)
  | .putObject key data _, w => (.ok (), { w with stores := w.stores.put key data })
  | .parseFile data mimeType filename, w => (env.parse data mimeType filename, w)
  | .embed texts, w => (env.embed texts, w)
  | .deletePoints docId, w => (.ok (), { w with stores := w.stores.deletePoints docId })
  | .upsert points, w => (.ok (), { w with stores := w.stores.upsert points })

/-- The calls of the execution `pid`. -/
def jobHandler (pid : Nat) (env : JobReplies) : Handler JobCalls JobErr JobWorld := jobReply pid env

/-! ### A document of one page -/

/-- Words are words, and nothing needs to be split. -/
def plainChunker : ChunkerLib := ⟨List.length, fun _ _ text => [text], Char.isAlphanum⟩

/-- A document that has just been uploaded. -/
def uploadedDocument : Document :=
  ⟨⟨1, 2, "luat.pdf", "application/pdf", 1, "5a", "1/2/3/luat.pdf"⟩, 3, .pending, none, none, none, 0, none⟩

/-- Nothing but that document and its object. -/
def JobWorld.uploaded : JobWorld where
  stores := ⟨⟨[uploadedDocument], by decide⟩, ⟨[], by decide⟩, [], fun _ => some [37], 10⟩
  executions _ := .start
  published := []

/-- A parser that finds a page, and an embedding model. -/
def plainReplies : JobReplies :=
  ⟨5, fun _ _ _ => .ok (parsePdf ["Luật"]), fun texts => .ok (texts.map fun _ => [1])⟩

end LegalRag
