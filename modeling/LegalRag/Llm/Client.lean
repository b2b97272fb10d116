import LegalRag.Llm.Calls
import LegalRag.Redis.Lists
import LegalRag.Text.PyValues

/-!
# The LLM clients

`LLMClient.complete` and `EmbeddingClient.embed` of `src/llm/client.py`.
-/

namespace LegalRag

open Calls Json

/-- The settings that the clients read. -/
structure LlmSettings where
  llmModelDefault : String
  embeddingModel : String
  embeddingDim : Nat
  embeddingBatchSize : Nat
  cacheTtlLlmS : Nat
  cacheTtlEmbeddingS : Nat
  deriving DecidableEq, Repr

/-- The defaults of the settings. -/
def llmDefaults : LlmSettings := ⟨"gemini-2.5-flash", "gemini-embedding-001", 768, 64, 3600, 604800⟩

/-- A call of `complete`, with the model of its client. -/
structure CompleteCall where
  clientModel : String
  messages : List Value
  model : Option String
  temperature : Number
  maxTokens : Option Number
  responseFormat : Option (List (String × Value))
  tools : Option (List Value)
  toolChoice : Option Value
  useCache : Bool
  extra : Option (List (String × Value))

/-- A computation on values of Python, with the text of its exception. -/
def ofPy {α : Type} (r : Except PyErr α) : Except LlmErr α := r.mapError fun e => ⟨e.text⟩

/-- The float `0.0`. -/
def floatZero : Number := ⟨['0', '.', '0'], List.cons_ne_nil _ _, List.all_eq_true.mp rfl⟩

/-- `x == 0.0` for a number. -/
def isZero (x : Number) : Bool :=
  x.text = ['0'] || x.text = ['0', '.', '0'] || x.text = ['-', '0', '.', '0']

namespace CompleteCall

/-- `model or self.model`. -/
def resolvedModel (c : CompleteCall) : String := orText c.model c.clientModel

def cacheable (c : CompleteCall) : Bool := c.useCache && isZero c.temperature && c.tools.isNone

/-- `{"t": temperature, "max": max_tokens, "rf": response_format}`, its items in the order of the keys. -/
def params (c : CompleteCall) : Value :=
  .obj [("max", (c.maxTokens.map Value.num).getD .null),
    ("rf", (c.responseFormat.map Value.obj).getD .null), ("t", .num c.temperature)]

/-- The parts of the cache key. -/
def keyParts (c : CompleteCall) : List KeyPart :=
  [.text c.resolvedModel, .json (.arr c.messages), .json c.params]

def cacheKey (sha256 : String → String) (c : CompleteCall) : String := makeKey sha256 "llm" c.keyParts

/-- The request that the call describes. -/
def request (c : CompleteCall) : CompletionRequest :=
  ⟨c.resolvedModel, c.messages, c.temperature, c.maxTokens, c.responseFormat, c.tools, c.toolChoice,
    c.extra.getD []⟩

end CompleteCall

/-- `ChatCompletion.model_validate` of what Redis returned. -/
def CachedValue.toCompletion : CachedValue → Except LlmErr ChatCompletion
  | .completion c => .ok c
  | _ => .error ⟨"validation errors for ChatCompletion"⟩

/-- The part of `complete` after the lookups. -/
def completeUpstream (s : LlmSettings) (key : Option String) (c : CompleteCall) : Llm ChatCompletion := do
  let result ← llm (.create c.request)
  match key with
  | none => return result
  | some key =>
    llm (.lruSet key result)
    llm (.cacheSet key (.completion result) s.cacheTtlLlmS)
    return result

/-- `complete`. -/
def complete (sha256 : String → String) (s : LlmSettings) (c : CompleteCall) : Llm ChatCompletion :=
  if c.cacheable then do
    let key := c.cacheKey sha256
    match ← llm (.lruGet key) with
    | some v => return v
    | none =>
      match ← llm (.cacheGet key) with
      | none => completeUpstream s (some key) c
      | some v =>
        match v.toCompletion with
        | .error e => throw e
        | .ok obj =>
          llm (.lruSet key obj)
          return obj
  else completeUpstream s none c

/-! ### Embeddings -/

/-- The cache key of a text. -/
def embedKey (sha256 : String → String) (model text : String) : String :=
  makeKey sha256 "emb" [.text model, .text text]

/-- What Redis returned, where a vector is expected. -/
def CachedValue.toVector : CachedValue → Except LlmErr Embedding
  | .vector v => .ok v
  | _ => .error ⟨"not a vector"⟩

/-- The lookup of one text. -/
def lookupVector (key : String) : Llm (Option Embedding) := do
  match ← llm (.lruEmbedGet key) with
  | some v => return some v
  | none =>
    match ← llm (.cacheGet key) with
    | none => return none
    | some v =>
      match v.toVector with
      | .error e => throw e
      | .ok v =>
        llm (.lruEmbedSet key v)
        return some v

/-- The lookups of all texts. -/
def lookupAll (sha256 : String → String) (s : LlmSettings) (useCache : Bool) : List String →
    Llm (List (Option Embedding))
  | [] => pure []
  | t :: ts => do
    let v ← if useCache then lookupVector (embedKey sha256 s.embeddingModel t) else pure none
    let vs ← lookupAll sha256 s useCache ts
    return v :: vs

/-- The texts that were not found, with their positions. -/
def missesOf (texts : List String) (results : List (Option Embedding)) : List (Nat × String) :=
  ((texts.zip results).zipIdx.filter fun x => x.1.2.isNone).map fun x => (x.2, x.1.1)

/-- The vectors of a batch are put into their places and cached; `strict=True` raises after the common
part. -/
def storeBatch (sha256 : String → String) (s : LlmSettings) (useCache : Bool) :
    List (Nat × String) → List Embedding → List (Option Embedding) → Llm (List (Option Embedding))
  | [], [], results => pure results
  | (idx, txt) :: batch, vec :: vectors, results => do
    if useCache then
      llm (.lruEmbedSet (embedKey sha256 s.embeddingModel txt) vec)
      llm (.cacheSet (embedKey sha256 s.embeddingModel txt) (.vector vec) s.cacheTtlEmbeddingS)
    storeBatch sha256 s useCache batch vectors (results.set idx (some vec))
  | _, _, _ => throw ⟨"zip() arguments have different lengths"⟩

/-- The batches, each with its call of the server. -/
def fetchBatches (sha256 : String → String) (s : LlmSettings) (useCache : Bool) :
    List (List (Nat × String)) → List (Option Embedding) → Llm (List (Option Embedding))
  | [], results => pure results
  | batch :: batches, results => do
    let vectors ← llm (.embeddings ⟨s.embeddingModel, batch.map (·.2), s.embeddingDim⟩)
    let results ← storeBatch sha256 s useCache batch vectors results
    fetchBatches sha256 s useCache batches results

/-- `embed`. -/
def embed (sha256 : String → String) (s : LlmSettings) (texts : List String) (useCache : Bool) :
    Llm (List Embedding) := do
  if texts = [] then return []
  else
  let results ← lookupAll sha256 s useCache texts
  let misses := missesOf texts results
  if misses = [] then return results.filterMap id
  else if s.embeddingBatchSize = 0 then throw ⟨"range() arg 3 must not be zero"⟩
  else
    let results ← fetchBatches sha256 s useCache (Redis.slices s.embeddingBatchSize misses) results
    return results.filterMap id

end LegalRag
