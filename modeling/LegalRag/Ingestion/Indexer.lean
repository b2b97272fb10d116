import LegalRag.Ingestion.Calls
import LegalRag.Redis.Lists

/-!
# The indexer

`src/ingestion/indexer.py`: the chunks are embedded, each becomes a Qdrant point and a row that refers to
it, and the points are upserted in batches.
-/

namespace LegalRag

open Calls

/-- The document whose chunks are indexed. -/
structure IndexTarget where
  docId : Uuid
  userId : Uuid
  tenantId : Uuid
  docTitle : String
  deriving DecidableEq, Repr

/-- The `PointStruct` of a chunk. -/
def pointOf (t : IndexTarget) (pointId : Uuid) (c : Chunk) (v : Embedding) : Point where
  id := pointId
  vector := v
  tenantId := toString t.tenantId
  userId := toString t.userId
  docId := toString t.docId
  docTitle := t.docTitle
  chunkIndex := c.index
  headingPath := c.headingPath
  pageFrom := c.pageFrom
  pageTo := c.pageTo
  text := c.text
  nTokens := c.nTokens

/-- The `DocumentChunk` of a chunk. -/
def rowOf (t : IndexTarget) (pointId rowId : Uuid) (c : Chunk) : DocumentChunk where
  id := rowId
  documentId := t.docId
  chunkIndex := c.index
  text := c.text
  nTokens := c.nTokens
  headingPath := c.headingPath
  pageFrom := c.pageFrom
  pageTo := c.pageTo
  qdrantPointId := some pointId

/-- The loop over `zip(chunks, vectors, strict=True)`. -/
def buildPoints (t : IndexTarget) : List Chunk → List Embedding → JobProg (List (Point × DocumentChunk))
  | [], [] => pure []
  | c :: cs, v :: vs => do
    let pointId ← job .uuid4
    let rowId ← job .uuid4
    let rest ← buildPoints t cs vs
    return (pointOf t pointId c v, rowOf t pointId rowId c) :: rest
  | [], _ :: _ => throw (.exception "zip() argument 2 is longer than argument 1")
  | _ :: _, [] => throw (.exception "zip() argument 2 is shorter than argument 1")

/-- The loop over the batches. -/
def upsertAll : List (List Point) → JobProg Unit
  | [] => pure ()
  | b :: bs => do
    job (.upsert b)
    upsertAll bs

/-- `index_chunks`. -/
def indexChunks (chunks : List Chunk) (t : IndexTarget) : JobProg (List DocumentChunk) := do
  if chunks.isEmpty then return []
  else
    let vectors ← job (.embed (chunks.map Chunk.text))
    let built ← buildPoints t chunks vectors
    upsertAll (Redis.slices 128 (built.map Prod.fst))
    return built.map Prod.snd

/-- `delete_doc_vectors`. -/
def deleteDocVectors (docId : Uuid) : JobProg Unit := job (.deletePoints (toString docId))

end LegalRag
