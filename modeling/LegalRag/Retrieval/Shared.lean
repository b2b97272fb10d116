import LegalRag.Db.Documents
import LegalRag.Llm.Embeddings
import LegalRag.Llm.Transparent
import LegalRag.Retrieval.Pipeline

/-!
# What the shared caches keep

No key of the caches has a tenant or a user in it.  But a key says which function was called with which
arguments (`CacheUse`), and under it is the value of that function (`Kept`), whoever called it: two uses
with one key have one value (`coherent_of_noCollision`).  For the scores of a rerank this is so because
the ids in the key determine the texts.
-/

namespace LegalRag

open Calls Prog Json

/-- The two rerankers. -/
inductive Backend where
  | cohere
  | llm
  deriving DecidableEq, Repr

/-- A function with its arguments, of which the caches keep the value. -/
inductive CacheUse where
  | completion (c : CompleteCall)
  | vector (text : String)
  | rewrite (query : String)
  | rerank (b : Backend) (query : String) (hits : List SearchHit) (topK : Int)

section Values

variable (x : RetrievalSetup) (up : Upstream)

/-- The queries that the model makes of a question. -/
def rewriteAlone (query : String) : Except LlmErr (List String) := do
  let resp ← up.create (rewriteCall x query).request
  queriesOf x query resp

def Backend.model : Backend → String
  | .cohere => x.rerank.cohereRerankModel
  | .llm => x.llm.llmModelDefault

/-- The scores that a reranker gives. -/
def Backend.scores (query : String) (hits : List SearchHit) (topK : Int) : Backend → Except LlmErr Scores
  | .cohere => do
    let results ← up.rerank (cohereRequest x query hits)
    return cohereScores hits.length results
  | .llm => do
    let resp ← up.create (rerankCall x query hits topK).request
    scoresOf x hits.length resp

namespace CacheUse

def ns : CacheUse → String
  | .completion _ => "llm"
  | .vector _ => "emb"
  | .rewrite _ => "rewrite"
  | .rerank .. => "rerank"

def parts : CacheUse → List KeyPart
  | .completion c => c.keyParts
  | .vector text => [.text x.llm.embeddingModel, .text text]
  | .rewrite query => rewriteParts x query
  | .rerank b query hits _ => rerankParts (b.model x) query hits

def key (u : CacheUse) : String := makeKey x.sha256 u.ns (u.parts x)

def value : CacheUse → Except LlmErr CachedValue
  | .completion c => (up.create c.request).map .completion
  | .vector text => .ok (.vector (up.current x.llm text))
  | .rewrite query => (rewriteAlone x up query).map .queries
  | .rerank b query hits topK => (b.scores x up query hits topK).map scoresValue

theorem colon_not_mem_ns (u : CacheUse) : ':' ∉ u.ns.toList := by
  have hns : ∀ ns ∈ ["llm", "emb", "rewrite", "rerank"], ':' ∉ ns.toList := by decide
  refine hns u.ns ?_
  cases u <;> simp [ns]

end CacheUse

/-- A value that one of the uses `U` has put under the key. -/
def Kept (U : CacheUse → Prop) (key : String) (v : CachedValue) : Prop :=
  ∃ u, U u ∧ u.key x = key ∧ u.value x up = .ok v

/-- All caches keep values of the uses `U`. -/
def keptKnown (U : CacheUse → Prop) (points : List Point → Prop) : Known where
  complete key v := Kept x up U key (.completion v)
  embed key v := Kept x up U key (.vector v)
  redis := Kept x up U
  points := points

/-- Uses with one key have one value. -/
def Coherent (U : CacheUse → Prop) : Prop :=
  ∀ u u', U u → U u' → u.key x = u'.key x → u.ns = u'.ns ∧ u.value x up = u'.value x up

end Values

variable {x : RetrievalSetup} {up : Upstream} {U : CacheUse → Prop}

theorem Kept.value (hU : Coherent x up U) {u : CacheUse} (hu : U u) {v : CachedValue}
    (h : Kept x up U (u.key x) v) : u.value x up = .ok v := by
  obtain ⟨u', hu', hkey, hv⟩ := h
  rw [(hU u u' hu hu' hkey.symm).2]
  exact hv

theorem kept_of_value {u : CacheUse} (hu : U u) {v : CachedValue} (h : u.value x up = .ok v) :
    Kept x up U (u.key x) v :=
  ⟨u, hu, rfl, h⟩

/-! ### Candidates -/

/-- The points that the search for a user can find. -/
def ownPoint (tenantId userId : Uuid) (p : Point) : Bool :=
  passes (mustConditions tenantId (some userId) none) p

/-- Hits of one search: points of `Pts` that pass one filter. -/
def FoundIn (Pts : Set Point) (tenantId userId : Uuid) (h : SearchHit) : Prop :=
  ∃ p ∈ Pts, ownPoint tenantId userId p = true ∧ h = hitOf (p, h.score)

/-- At most forty different hits of one search. -/
structure IsPool (Pts : Set Point) (hits : List SearchHit) : Prop where
  nodup : (hits.map SearchHit.pointId).Nodup
  length_le : hits.length ≤ 40
  found : ∃ tenantId userId, ∀ h ∈ hits, FoundIn Pts tenantId userId h

theorem IsPool.sublist {Pts : Set Point} {hits hits' : List SearchHit} (h : IsPool Pts hits)
    (hsub : hits'.Sublist hits) : IsPool Pts hits' := by
  obtain ⟨tenantId, userId, hfound⟩ := h.found
  exact ⟨h.nodup.sublist (hsub.map _), hsub.length_le.trans h.length_le, tenantId, userId,
    fun a ha => hfound a (hsub.subset ha)⟩

/-- What a reranker sees of a hit. -/
def SearchHit.content (h : SearchHit) : String × String := (h.label, h.text)

/-- An id belongs to one point. -/
def IdsUnique (Pts : Set Point) : Prop := ∀ p ∈ Pts, ∀ p' ∈ Pts, p.id = p'.id → p = p'

/-- The ids determine what the rerankers see. -/
private theorem contents_eq {Pts : Set Point} (hids : IdsUnique Pts) {t u t' u' : Uuid}
    {hits hits' : List SearchHit} (h : ∀ a ∈ hits, FoundIn Pts t u a) (h' : ∀ a ∈ hits', FoundIn Pts t' u' a)
    (heq : hits.map SearchHit.pointId = hits'.map SearchHit.pointId) :
    hits.map SearchHit.content = hits'.map SearchHit.content := by
  induction hits generalizing hits' with
  | nil =>
    obtain rfl : hits' = [] := List.map_eq_nil_iff.mp heq.symm
    rfl
  | cons a hits ih =>
    cases hits' with
    | nil => cases heq
    | cons b hits' =>
      rw [List.map_cons, List.map_cons, List.cons.injEq] at heq
      obtain ⟨hid, hrest⟩ := heq
      obtain ⟨p, hp, -, ha⟩ := h a (List.mem_cons_self ..)
      obtain ⟨p', hp', -, hb⟩ := h' b (List.mem_cons_self ..)
      have hsame : p = p' := by
        refine hids p hp p' hp' (uuid_str_inj ?_)
        rw [ha, hb] at hid
        exact hid
      have hcontent : a.content = b.content := by
        rw [ha, hb, hsame]
        rfl
      rw [List.map_cons, List.map_cons, hcontent, ih (fun c hc => h c (List.mem_cons_of_mem a hc))
          (fun c hc => h' c (List.mem_cons_of_mem b hc)) hrest]

/-- The scores depend on what the rerankers see. -/
private theorem Backend.scores_congr {query : String} {topK : Int} {hits hits' : List SearchHit}
    (h : hits.map SearchHit.content = hits'.map SearchHit.content) (b : Backend) :
    b.scores x up query hits topK = b.scores x up query hits' topK := by
  have hlength : hits.length = hits'.length := by
    have hl := congrArg List.length h
    rwa [List.length_map, List.length_map] at hl
  cases b with
  | cohere =>
    have hdocuments : ∀ hs : List SearchHit, (cohereRequest x query hs).documents =
        (hs.map SearchHit.content).map fun c => .ofList ((c.1 ++ "\n" ++ c.2).toList.take 2000) := by
      intro hs
      rw [List.map_map]
      rfl
    have hrequest : cohereRequest x query hits = cohereRequest x query hits' := by
      unfold cohereRequest
      rw [hlength, RerankRequest.mk.injEq]
      exact ⟨rfl, rfl, (hdocuments hits).trans ((congrArg _ h).trans (hdocuments hits').symm), rfl⟩
    unfold Backend.scores
    rw [hrequest, hlength]
  | llm =>
    have htext : ∀ hs : List SearchHit,
      candidatesText hs = "\n\n".intercalate ((hs.map SearchHit.content).mapIdx
        fun i c => "[" ++ toString i ++ "] " ++ c.1 ++ "\n" ++ .ofList (c.2.toList.take 500)) := by
      intro hs
      unfold candidatesText
      rw [List.mapIdx_eq_zipIdx_map, List.mapIdx_eq_zipIdx_map, List.zipIdx_map, List.map_map]
      rfl
    have hcall : rerankCall x query hits topK = rerankCall x query hits' topK := by
      unfold rerankCall
      rw [htext hits, htext hits', h]
    unfold Backend.scores
    rw [hcall, hlength]

/-! ### The uses of a service -/

/-- A call of `complete` without `tool_choice` and `extra`. -/
structure PlainCall where
  call : CompleteCall
  toolChoice : call.toolChoice = none
  extra : call.extra = none

/-- What is asked of a process: a retrieval as the agent calls it, or a call of one of the clients by
other code. -/
inductive PipelineCall where
  | retrieve (order : List Nat) (query : String) (tenantId userId : Uuid)
  | complete (c : PlainCall)
  | embed (texts : List String) (useCache : Bool)

/-- A retrieval for this question. -/
def Asks (A : Set PipelineCall) (query : String) : Prop :=
  ∃ order tenantId userId, .retrieve order query tenantId userId ∈ A

section Uses

variable (x : RetrievalSetup) (up : Upstream) (fails : Prop) (A : Set PipelineCall) (Pts : Set Point)

/-- The rerankers that can be asked: the model also after a failure of Cohere or, if `fails`, of a call on
the way. -/
def Backend.Active : Backend → Prop
  | .cohere => x.rerank.cohereEnabled
  | .llm => x.rerank.cohereEnabled → fails ∨ ∃ r e, up.rerank r = .error e

/-- The uses of the caches by the calls of `A`, where all points are of `Pts`. -/
inductive Used : CacheUse → Prop where
  | call {c : PlainCall} (hA : .complete c ∈ A) (hc : c.call.cacheable) : Used (.completion c.call)
  | text {texts : List String} {useCache : Bool} {text : String} (hA : .embed texts useCache ∈ A)
      (ht : text ∈ texts) (hsize : 0 < x.llm.embeddingBatchSize) : Used (.vector text)
  | rewriteCall {query : String} (hA : Asks A query) : Used (.completion (rewriteCall x query))
  | rewrite {query : String} (hA : Asks A query) : Used (.rewrite query)
  | query {query sub : String} {qs : List String} (hA : Asks A query)
      (hqs : rewriteAlone x up query = .ok qs) (hsub : sub ∈ qs)
      (hsize : 0 < x.llm.embeddingBatchSize) : Used (.vector sub)
  | rerankCall {query : String} {hits : List SearchHit} (hA : Asks A query) (hp : IsPool Pts hits)
      (h2 : 2 ≤ hits.length)
      (hb : Backend.llm.Active x up fails) : Used (.completion (rerankCall x query hits 5))
  | rerank {b : Backend} {query : String} {hits : List SearchHit} (hA : Asks A query) (hp : IsPool Pts hits)
      (h2 : 2 ≤ hits.length) (hb : b.Active x up fails) : Used (.rerank b query hits 5)

end Uses

/-- SHA-256 has no collision among the keys of the uses. -/
def NoUseCollision (x : RetrievalSetup) (U : CacheUse → Prop) : Prop :=
  ∀ u u', U u → U u' → x.sha256 (keyText (u.parts x)) = x.sha256 (keyText (u'.parts x)) →
    keyText (u.parts x) = keyText (u'.parts x)

/-- Uses with one key are of one function, with the same arguments in the key. -/
theorem NoUseCollision.same {U : CacheUse → Prop} (hsha : NoUseCollision x U) {u u' : CacheUse} (hu : U u)
    (hu' : U u') (hkey : u.key x = u'.key x) : u.ns = u'.ns ∧ keyText (u.parts x) = keyText (u'.parts x) := by
  have hns : u.ns = u'.ns := makeKey_ns u.colon_not_mem_ns u'.colon_not_mem_ns hkey
  refine ⟨hns, hsha u u' hu hu' ?_⟩
  unfold CacheUse.key at hkey
  rw [hns] at hkey
  exact makeKey_text hkey

variable {fails : Prop} {A : Set PipelineCall} {Pts : Set Point}

/-- A use of the completion cache has no further arguments. -/
private theorem Used.plain {c : CompleteCall} (h : Used x up fails A Pts (.completion c)) :
    c.cacheable ∧ c.toolChoice = none ∧ c.extra = none := by
  cases h with
  | @call d hA hc => exact ⟨hc, d.toolChoice, d.extra⟩
  | rewriteCall hA => exact ⟨rfl, rfl, rfl⟩
  | rerankCall hA hp h2 hb => exact ⟨rfl, rfl, rfl⟩

private theorem Used.pool {b : Backend} {query : String} {hits : List SearchHit} {topK : Int}
    (h : Used x up fails A Pts (.rerank b query hits topK)) :
    IsPool Pts hits ∧ b.Active x up fails ∧ topK = 5 := by
  cases h with
  | rerank hA hp h2 hb => exact ⟨hp, hb, rfl⟩

/-- Both rerankers are asked. -/
def BothActive (x : RetrievalSetup) (up : Upstream) (fails : Prop) : Prop :=
  Backend.cohere.Active x up fails ∧ Backend.llm.Active x up fails

/-- The key of a rerank says which reranker was asked. -/
private theorem backend_eq (hapart : BothActive x up fails →
    Apart x.rerank.cohereRerankModel x.llm.llmModelDefault) {b b' : Backend}
    (hb : b.Active x up fails) (hb' : b'.Active x up fails) {ps qs : List KeyPart}
    (h : keyText (.text (b.model x) :: ps) = keyText (.text (b'.model x) :: qs)) : b = b' := by
  cases b with
  | cohere =>
    cases b' with
    | cohere => rfl
    | llm => exact absurd h ((hapart ⟨hb, hb'⟩).keyText_ne ps qs)
  | llm =>
    cases b' with
    | cohere => exact absurd h.symm ((hapart ⟨hb', hb⟩).keyText_ne qs ps)
    | llm => rfl

/-- Without collisions, and with unique ids of the points, uses with one key have one value. -/
theorem coherent_of_noCollision (hsha : NoUseCollision x (Used x up fails A Pts))
    (hapart : BothActive x up fails → Apart x.rerank.cohereRerankModel x.llm.llmModelDefault)
    (hids : IdsUnique Pts) : Coherent x up (Used x up fails A Pts) := by
  intro u u' hu hu' hkey
  obtain ⟨hns, htext⟩ := hsha.same hu hu' hkey
  refine ⟨hns, ?_⟩
  cases u with
  | completion c =>
    cases u' with
    | completion d =>
      obtain ⟨hcc, hctool, hcextra⟩ := hu.plain
      obtain ⟨hdc, hdtool, hdextra⟩ := hu'.plain
      have hrequest : c.request = d.request := by
        refine (request_eq_iff (sameKeyInputs_of_keyText htext) hcc hdc).mpr ?_
        rw [hctool, hdtool, hcextra, hdextra]
        exact ⟨rfl, rfl⟩
      show (up.create c.request).map CachedValue.completion = (up.create d.request).map CachedValue.completion
      rw [hrequest]
    | _ => simp [CacheUse.ns] at hns
  | vector text =>
    cases u' with
    | vector text' =>
      obtain rfl : text = text' := keyText_pair_cancel htext
      rfl
    | _ => simp [CacheUse.ns] at hns
  | rewrite query =>
    cases u' with
    | rewrite query' =>
      obtain rfl : query = query' := keyText_pair_cancel htext
      rfl
    | _ => simp [CacheUse.ns] at hns
  | rerank b query hits topK =>
    cases u' with
    | rerank b' query' hits' topK' =>
      obtain ⟨hp, hb, rfl⟩ := hu.pool
      obtain ⟨hp', hb', rfl⟩ := hu'.pool
      obtain rfl : b = b' := backend_eq hapart hb hb' htext
      obtain ⟨rfl, hidsEq⟩ := keyText_triple_cancel htext
      obtain ⟨_, _, hfound⟩ := hp.found
      obtain ⟨_, _, hfound'⟩ := hp'.found
      have hpoints : hits.map SearchHit.pointId = hits'.map SearchHit.pointId := by
        have hstrings : (hits.map SearchHit.pointId).map Value.str =
            (hits'.map SearchHit.pointId).map Value.str := by
          rw [List.map_map, List.map_map]
          exact Value.arr.inj hidsEq
        exact List.map_injective_iff.mpr (fun _ _ => Value.str.inj) hstrings
      show (b.scores x up query hits 5).map scoresValue = (b.scores x up query hits' 5).map scoresValue
      rw [Backend.scores_congr (contents_eq hids hfound hfound' hpoints)]
    | _ => simp [CacheUse.ns] at hns

end LegalRag
