import LegalRag.Calls.Gather
import LegalRag.Memory.Facts
import LegalRag.Retrieval.Rerank

/-!
# The retrieval pipeline

`src/retrieval/pipeline.py`, `vector_search` and the two rerankers of `src/retrieval/rerank.py`, as
programs over the calls of the clients.
-/

namespace LegalRag

open Calls Json

/-- The settings of the reranker. -/
structure RerankSettings where
  rerankProvider : String
  cohereApiKey : Option String
  cohereRerankModel : String
  rerankMaxCandidates : Int
  deriving DecidableEq, Repr

def RerankSettings.cohereEnabled (s : RerankSettings) : Bool :=
  s.rerankProvider = "cohere" ∧ s.cohereApiKey ≠ none

/-- What the retrieval takes from the settings and from Python's libraries. -/
structure RetrievalSetup where
  sha256 : String → String
  llm : LlmSettings
  rerank : RerankSettings
  parse : PyText

variable (x : RetrievalSetup)

/-- `resp.choices[0].message.content or "{}"`. -/
def replyText (resp : ChatCompletion) : Except LlmErr String :=
  match resp.choices with
  | [] => .error ⟨"list index out of range"⟩
  | content :: _ => .ok (replyBody content)

/-- `response_format={"type": "json_object"}`. -/
def jsonObject : List (String × Value) := [("type", .str "json_object")]

/-- A call with two messages that asks for JSON. -/
def jsonCall (s : LlmSettings) (system user : String) (maxTokens : Number) : CompleteCall where
  clientModel := s.llmModelDefault
  messages := [chatValue "system" system, chatValue "user" user]
  model := none
  temperature := floatZero
  maxTokens := some maxTokens
  responseFormat := some jsonObject
  tools := none
  toolChoice := none
  useCache := true
  extra := none

/-! ### Queries -/

/-- `REWRITE_SYSTEM`. -/
def rewriteSystem : String :=
  "Bạn là bộ viết lại truy vấn cho hệ thống tìm kiếm tài liệu pháp luật.\n" ++
  "Cho 1 câu hỏi của user, sinh tối đa 3 truy vấn TIẾNG VIỆT cô đọng, súc tích,\n" ++
  "mỗi cái nhấn 1 khía cạnh khác nhau (đồng nghĩa, mở rộng khái niệm, từ khoá luật).\n" ++
  "Trả JSON: \x7b\"queries\": [\"...\", \"...\"]\x7d.\n" ++
  "Nếu câu hỏi đã cụ thể, trả 1 query duy nhất.\n" ++
  "KHÔNG thêm giải thích."

/-- `max_tokens` of the rewrite. -/
def rewriteTokens : Number := ⟨['2', '0', '0'], List.cons_ne_nil _ _, List.all_eq_true.mp rfl⟩

def rewriteCall (query : String) : CompleteCall :=
  jsonCall x.llm rewriteSystem query rewriteTokens

/-- A text that is not blank. -/
def subQuery : PyValue → Option String
  | .str q => if stripText q = "" then none else some q
  | _ => none

/-- The queries in the reply of the model; text that is no JSON has none. -/
def queriesIn (raw : String) : Except PyErr (List String) :=
  match x.parse.loads raw with
  | .error e => if e.kind = .jsonDecodeError then .ok [] else .error e
  | .ok obj => do
    match ← obj.getTruthy "queries" with
    | none => return []
    | some v => return (← v.iterate).filterMap subQuery

/-- At most three queries; the question itself, if there is none. -/
def queriesOf (query : String) (resp : ChatCompletion) : Except LlmErr (List String) := do
  let raw ← replyText resp
  let qs ← ofPy (queriesIn x raw)
  return (if qs = [] then [query] else qs).take 3

def rewriteParts (query : String) : List KeyPart := [.text x.llm.llmModelDefault, .text query]

/-- `list(cached)`. -/
def CachedValue.toQueries : CachedValue → Except LlmErr (List String)
  | .queries qs => .ok qs
  | _ => .error ⟨"not a list of queries"⟩

/-- The part of `rewrite_query` after the lookup. -/
def rewriteUpstream (query : String) (useCache : Bool) : Llm (List String) := do
  let resp ← complete x.sha256 x.llm (rewriteCall x query)
  let qs ← .done (queriesOf x query resp)
  if useCache then llm (.cacheSet (makeKey x.sha256 "rewrite" (rewriteParts x query)) (.queries qs) 600)
  return qs

/-- `rewrite_query`. -/
def rewriteQuery (query : String) (useCache : Bool) : Llm (List String) := do
  let cached ← if useCache then llm (.cacheGet (makeKey x.sha256 "rewrite" (rewriteParts x query)))
    else pure none
  match cached with
  | some v => .done v.toQueries
  | none => rewriteUpstream x query useCache

/-! ### Search -/

/-- A point that was found, with its score. -/
def hitOf (found : Point × ℚ) : SearchHit where
  pointId := toString found.1.id
  score := found.2
  docId := found.1.docId
  docTitle := found.1.docTitle
  chunkIndex := found.1.chunkIndex
  headingPath := found.1.headingPath
  pageFrom := found.1.pageFrom
  pageTo := found.1.pageTo
  text := found.1.text

/-- `vector_search`. -/
def vectorSearch (query : String) (tenantId : Uuid) (userId : Option Uuid) (docIds : Option (List Uuid))
    (topK : Nat) : Llm (List SearchHit) := do
  let vectors ← embed x.sha256 x.llm [query] true
  match vectors with
  | [vector] =>
    let hits ← llm (.search vector (mustConditions tenantId userId docIds) topK)
    return hits.map hitOf
  | _ => throw ⟨"not enough or too many values to unpack (expected 1)"⟩

/-- `by_id[h.point_id] = h` where the point is new or has a higher score; a point keeps its place. -/
def keepBest (byId : List SearchHit) (h : SearchHit) : List SearchHit :=
  if byId.any fun e => e.pointId = h.pointId then
    byId.map fun e => if e.pointId = h.pointId ∧ e.score < h.score then h else e
  else byId ++ [h]

/-- `by_id.values()` after the loop over the results. -/
def dedupe (results : List (List SearchHit)) : List SearchHit := results.flatten.foldl keepBest []

/-- The best of all that was found. -/
def poolOf (topKSearch : Nat) (results : List (List SearchHit)) : List SearchHit :=
  Redis.sliceTo (topKSearch * 2) (Ranked.ranked SearchHit.score (dedupe results))

/-! ### Rerank -/

/-- A result of a reranker, of which the score may be any float. -/
structure RankedHit where
  hit : SearchHit
  score : PyFloat
  deriving DecidableEq, Repr

/-- The scores by position, in the order of a `dict`. -/
abbrev Scores := List (Nat × PyFloat)

/-- `id_to_score.get(i)`. -/
def scoreAt (scores : Scores) (i : Nat) : Option PyFloat := (scores.find? fun e => e.1 = i).map Prod.snd

/-- The result for a hit and its position. -/
def rankedHit (idToScore : Nat → Option PyFloat) (h : SearchHit × Nat) : RankedHit :=
  ⟨h.1, (idToScore h.2).getD (.finite (h.1.score * (1 / 2)))⟩

/-- `_materialize`, for scores that need not be finite.  Where NaN is among them, Python does not specify
the order. -/
def materializeFloats (hits : List SearchHit) (idToScore : Nat → Option PyFloat) (topK : Int) :
    List RankedHit :=
  Redis.sliceTo topK ((hits.zipIdx.map (rankedHit idToScore)).insertionSort fun a b =>
    ¬ a.score.lt b.score)

/-- `id_to_score[i] = score`. -/
def setScore (i : Nat) (score : PyFloat) (scores : Scores) : Scores :=
  if scores.any fun e => e.1 = i then scores.map fun e => if e.1 = i then (i, score) else e
  else scores ++ [(i, score)]

/-- A score for one of `n` candidates. -/
def addScore (n : Nat) (scores : Scores) (i : Int) (score : PyFloat) : Scores :=
  if 0 ≤ i ∧ i < n then setScore i.toNat score scores else scores

/-- `int(r["id"])` and `float(r["score"])`. -/
def scoreIn (r : PyValue) : Except PyErr (Int × PyFloat) := do
  let i ← (← r.item "id").toInt x.parse
  let score ← (← r.item "score").toFloat x.parse
  return (i, score)

/-- `except (KeyError, ValueError, TypeError)`. -/
def PyErrKind.skipped : PyErrKind → Bool
  | .keyError | .valueError | .typeError | .jsonDecodeError => true
  | .attributeError | .overflowError | .other => false

/-- The loop over the entries of the model's reply. -/
def scoresIn (n : Nat) : Scores → List PyValue → Except PyErr Scores
  | scores, [] => .ok scores
  | scores, r :: rs =>
    match scoreIn x r with
    | .ok (i, score) => scoresIn n (addScore n scores i score) rs
    | .error e => if e.kind.skipped then scoresIn n scores rs else .error e

/-- `ranked`: the entries of the reply; text that is no JSON has none. -/
def entriesIn (raw : String) : Except PyErr (List PyValue) :=
  match x.parse.loads raw with
  | .error e => if e.kind = .jsonDecodeError then .ok [] else .error e
  | .ok obj => do
    match ← obj.getTruthy "ranked" with
    | none => return []
    | some v => v.iterate

/-- The scores in the reply of the model for `n` candidates. -/
def scoresOf (n : Nat) (resp : ChatCompletion) : Except LlmErr Scores := do
  let raw ← replyText resp
  let entries ← ofPy (entriesIn x raw)
  ofPy (scoresIn x n [] entries)

/-- `RERANK_SYSTEM`. -/
def rerankSystem : String :=
  "Bạn là bộ đánh giá mức độ liên quan giữa CÂU HỎI và các ĐOẠN TÀI LIỆU.\n" ++
  "Trả về JSON object: \x7b\"ranked\": [\x7b\"id\": <int>, \"score\": <0.0-1.0>\x7d, ...]\x7d\n" ++
  "- Sắp xếp theo score giảm dần.\n" ++
  "- Score 1.0 = trả lời trực tiếp, 0.0 = không liên quan.\n" ++
  "- Bỏ qua các đoạn rõ ràng không liên quan (score < 0.2).\n" ++
  "- Chỉ dùng id đã cho trong input."

/-- `h.heading_path or h.doc_title`. -/
def SearchHit.label (h : SearchHit) : String := orText h.headingPath h.docTitle

/-- `candidates_text`. -/
def candidatesText (hits : List SearchHit) : String :=
  "\n\n".intercalate (hits.mapIdx fun i h => "[" ++ toString i ++ "] " ++ h.label ++ "\n" ++
    .ofList (h.text.toList.take 500))

/-- `max_tokens` of the rerank. -/
def rerankTokens : Number := ⟨['6', '0', '0'], List.cons_ne_nil _ _, List.all_eq_true.mp rfl⟩

def rerankCall (query : String) (hits : List SearchHit) (topK : Int) : CompleteCall :=
  jsonCall x.llm rerankSystem
    ("CÂU HỎI: " ++ query ++ "\n\nDANH SÁCH ĐOẠN:\n" ++ candidatesText hits ++
      "\n\nTrả JSON như đã hướng dẫn, chỉ giữ top " ++ toString topK ++ ".") rerankTokens

/-- The request of Cohere; `_COHERE_DOC_MAX_CHARS` is 2000. -/
def cohereRequest (query : String) (hits : List SearchHit) : RerankRequest where
  model := x.rerank.cohereRerankModel
  query := query
  documents := hits.map fun h => .ofList ((h.label ++ "\n" ++ h.text).toList.take 2000)
  topN := hits.length

/-- The scores in the reply of Cohere for `n` candidates. -/
def cohereScores (n : Nat) (results : List (Int × ℚ)) : Scores :=
  results.foldl (fun scores r => addScore n scores r.1 (.finite r.2)) []

def rerankParts (model query : String) (hits : List SearchHit) : List KeyPart :=
  [.text model, .text query, .json (.arr (hits.map fun h => .str h.pointId))]

/-- A score as JSON: NaN and the infinities are written as `null`. -/
def PyFloat.json : PyFloat → Option ℚ
  | .finite q => some q
  | .infinite _ | .nan => none

/-- `{str(k): v for k, v in id_to_score.items()}` as JSON. -/
def scoresValue (ss : Scores) : CachedValue := .scores (ss.map fun e => (e.1, e.2.json))

/-- `{int(k): float(v) for k, v in cached.items()}`. -/
def readScores : List (Nat × Option ℚ) → Except LlmErr Scores
  | [] => .ok []
  | (i, some q) :: es => do return (i, .finite q) :: (← readScores es)
  | (_, none) :: _ => .error ⟨"float() argument must be a string or a real number, not 'NoneType'"⟩

def CachedValue.toScores : CachedValue → Except LlmErr Scores
  | .scores es => readScores es
  | _ => .error ⟨"object has no attribute 'items'"⟩

/-- The scores under a key; empty ones count as none. -/
def lookupScores (key : String) : Llm (Option Scores) := do
  match ← llm (.cacheGet key) with
  | none => return none
  | some v =>
    let ss ← .done v.toScores
    return if ss = [] then none else some ss

/-- What the two rerankers share: a single hit keeps its score, and the scores of several are looked up
under a key before they are fetched. -/
def rerankThrough (key : String) (fetch : Llm Scores) (hits : List SearchHit) (topK : Int) (useCache : Bool) :
    Llm (List RankedHit) :=
  match hits with
  | [] => return []
  | [h] => return [⟨h, .finite h.score⟩]
  | hits => do
    match ← if useCache then lookupScores key else pure none with
    | some ss => return materializeFloats hits (scoreAt ss) topK
    | none =>
      let ss ← fetch
      if useCache ∧ ss ≠ [] then llm (.cacheSet key (scoresValue ss) 600)
      return materializeFloats hits (scoreAt ss) topK

/-- The scores that the model gives. -/
def llmScores (query : String) (hits : List SearchHit) (topK : Int) : Llm Scores := do
  let resp ← complete x.sha256 x.llm (rerankCall x query hits topK)
  .done (scoresOf x hits.length resp)

/-- The scores that Cohere gives. -/
def fetchCohere (query : String) (hits : List SearchHit) : Llm Scores := do
  let results ← llm (.cohereRerank (cohereRequest x query hits))
  return cohereScores hits.length results

/-- `llm_rerank`. -/
def llmRerank (query : String) (hits : List SearchHit) (topK : Int) (useCache : Bool) :
    Llm (List RankedHit) :=
  rerankThrough (makeKey x.sha256 "rerank" (rerankParts x.llm.llmModelDefault query hits))
    (llmScores x query hits topK) hits topK useCache

/-- `cohere_rerank`. -/
def cohereRerank (query : String) (hits : List SearchHit) (topK : Int) (useCache : Bool) :
    Llm (List RankedHit) :=
  rerankThrough (makeKey x.sha256 "rerank" (rerankParts x.rerank.cohereRerankModel query hits))
    (fetchCohere x query hits) hits topK useCache

/-- The candidates: too many are cut. -/
def candidates (hits : List SearchHit) : List SearchHit :=
  if x.rerank.rerankMaxCandidates < hits.length then Redis.sliceTo x.rerank.rerankMaxCandidates hits
  else hits

/-- `rerank`. -/
def rerank (query : String) (hits : List SearchHit) (topK : Int) (useCache : Bool) : Llm (List RankedHit) :=
  if hits = [] then return []
  else if x.rerank.cohereEnabled then
    tryCatch (cohereRerank x query (candidates x hits) topK useCache) fun _ =>
      llmRerank x query (candidates x hits) topK useCache
  else llmRerank x query (candidates x hits) topK useCache

/-! ### The whole -/

structure RetrievedChunk where
  docId : String
  chunkId : String
  docTitle : String
  headingPath : Option String
  pageFrom : Option Nat
  pageTo : Option Nat
  text : String
  score : PyFloat
  deriving DecidableEq, Repr

/-- The chunk of a result. -/
def RankedHit.chunk (r : RankedHit) : RetrievedChunk where
  docId := r.hit.docId
  chunkId := r.hit.pointId
  docTitle := r.hit.docTitle
  headingPath := r.hit.headingPath
  pageFrom := r.hit.pageFrom
  pageTo := r.hit.pageTo
  text := r.hit.text
  score := r.score

/-- `retrieve_and_rerank`; the searches make their calls in some order. -/
def retrieveAndRerank (order : List Nat) (query : String) (tenantId : Uuid) (userId : Option Uuid)
    (docIds : Option (List Uuid)) (topKSearch : Nat) (topKFinal : Int) (rewrite : Bool) :
    Llm (List RetrievedChunk) := do
  let queries ← if rewrite then rewriteQuery x query true else pure [query]
  let results ← Prog.gather order (queries.map fun q =>
    vectorSearch x q tenantId userId docIds topKSearch)
  let ranked ← rerank x query (poolOf topKSearch results) topKFinal true
  return ranked.map RankedHit.chunk

end LegalRag
