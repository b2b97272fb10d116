import LegalRag.Ingestion.Indexer

/-!
# The ingestion job

`process_document` of `src/worker/tasks/ingestion.py`, with `set_status` and `bulk_insert_chunks` of
`src/db/repositories/document.py` and `session_scope` of `src/core/db.py`.
-/

namespace LegalRag

open Calls

/-- `session_scope()`: commit at the end of the block, also after a `return`; roll back on an exception.
-/
def sessionScope {α : Type} (body : JobProg α) : JobProg α := do
  job .openSession
  exceptException
    (do
      let a ← body
      job .commit
      return a)
    fun text => do
      job .rollback
      throw (.exception text)

/-- `set_status`. -/
def setStatus (docId : Uuid) (status : DocStatus) (error : Option String) (nChunks : Option Nat)
    (markdownKey : Option String) : JobProg Unit := do
  if status = .indexed then
    let now ← job .now
    job (.updateDocument docId ⟨status, error, nChunks, markdownKey, some now⟩)
  else job (.updateDocument docId ⟨status, error, nChunks, markdownKey, none⟩)

/-- `bulk_insert_chunks`. -/
def bulkInsertChunks (rows : List DocumentChunk) : JobProg Unit := job (.insertChunks rows)

/-- `_publish(doc_id, "status", ..)`. -/
def publishStatus (docId : Uuid) (e : StatusEvent) : JobProg Unit :=
  job (.publish ("doc:" ++ toString docId ++ ":events") e)

/-- `storage_key.rsplit("/", 1)[0] + "/parsed.md"`. -/
def markdownKeyOf (storageKey : String) : String :=
  let dir := (storageKey.toList.reverse.dropWhile (· ≠ '/')).drop 1
  (if storageKey.toList.contains '/' then .ofList dir.reverse else storageKey) ++ "/parsed.md"

/-- `text[:n]`. -/
def cut (n : Nat) (text : String) : String := .ofList (text.toList.take n)

/-- What a job returns. -/
inductive JobResult where
  | missing
  | alreadyIndexed
  | indexed (nChunks : Nat)
  deriving DecidableEq, Repr

/-- The chunker with the sizes of the call in `process_document`. -/
abbrev chunksOf (lib : ChunkerLib) (parsed : ParseResult) : List Chunk := chunkDocument lib 800 100 parsed

/-- The block of the first session: the row, if there is work to do. -/
def beginBody (docId : Uuid) : JobProg (JobResult ⊕ Document) := do
  match ← job (.getInternal docId) with
  | none => return .inl .missing
  | some doc =>
    if doc.status = .indexed then return .inl .alreadyIndexed
    else
      setStatus docId .parsing none none none
      return .inr doc

/-- The first session. -/
def beginJob (docId : Uuid) : JobProg (JobResult ⊕ Document) := sessionScope (beginBody docId)

/-- From the download to the chunks. -/
def chunkStage (lib : ChunkerLib) (docId : Uuid) (doc : Document) : JobProg (List Chunk) := do
  let data ← job (.getObject doc.storageKey)
  let parsed ← job (.parseFile data doc.mimeType doc.title)
  let markdownKey := markdownKeyOf doc.storageKey
  job (.putObject markdownKey parsed.markdown.toUTF8.toList "text/markdown")
  sessionScope (setStatus docId .chunking none none (some markdownKey))
  publishStatus docId ⟨.chunking, none, none⟩
  let chunks := chunksOf lib parsed
  if chunks.isEmpty then throw (.exception "no chunks produced (empty document?)")
  else return chunks

/-- From the chunks to the indexed document. -/
def indexStage (docId : Uuid) (doc : Document) (chunks : List Chunk) : JobProg JobResult := do
  sessionScope (setStatus docId .embedding none none none)
  publishStatus docId ⟨.embedding, some chunks.length, none⟩
  deleteDocVectors docId
  let rows ← indexChunks chunks ⟨docId, doc.userId, doc.tenantId, doc.title⟩
  sessionScope do
    bulkInsertChunks rows
    setStatus docId .indexed none (some rows.length) none
  publishStatus docId ⟨.indexed, some rows.length, none⟩
  return .indexed rows.length

/-- The `except` block. -/
def failJob (docId : Uuid) (text : String) : JobProg JobResult := do
  sessionScope (setStatus docId .failed (some (cut 2000 text)) none none)
  publishStatus docId ⟨.failed, none, some (cut 500 text)⟩
  throw (.exception text)

/-- `process_document`, for a document id that is a UUID. -/
def processDocument (lib : ChunkerLib) (docId : Uuid) : JobProg JobResult := do
  match ← beginJob docId with
  | .inl r => return r
  | .inr doc =>
    publishStatus docId ⟨.parsing, none, none⟩
    exceptException
      (do
        let chunks ← chunkStage lib docId doc
        indexStage docId doc chunks)
      (failJob docId)

end LegalRag
