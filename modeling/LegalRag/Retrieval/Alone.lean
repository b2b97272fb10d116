import LegalRag.Retrieval.Shared

/-!
# What the parts of the pipeline return

As long as the caches keep values of their uses, each part of the pipeline ends as it would without them:
a completion, a vector, the queries of a question and the scores of a rerank are those of the servers
(`Computes`).
-/

namespace LegalRag

open Calls Prog Json

variable {x : RetrievalSetup} {up : Upstream} {U : CacheUse → Prop} {points : List Point → Prop} {F : Prop}

/-- With caches that keep values of the uses `U`, the program ends with `v` or, if calls may fail, with an
exception. -/
abbrev Computes {α : Type} (x : RetrievalSetup) (up : Upstream) (U : CacheUse → Prop)
    (points : List Point → Prop) (F : Prop) (p : Llm α) (v : Except LlmErr α) : Prop :=
  p.Accords (MayFail F (Replies (keptKnown x up U points) up)) (Writes (keptKnown x up U points))
    (OrFails F fun r => r = v)

theorem map_eq_ok {ε α β : Type} {f : α → β} {r : Except ε α} {b : β} (h : r.map f = .ok b) : ∃ a,
    r = .ok a ∧ f a = b := by
  cases r with
  | error e => cases h
  | ok a => exact ⟨a, rfl, Except.ok.inj h⟩

theorem complete_computes (hU : Coherent x up U) {c : CompleteCall} (hc : c.cacheable → U (.completion c)) :
    Computes x up U points F (complete x.sha256 x.llm c) (up.create c.request) := by
  refine complete_accords fun hcc => ?_
  have hu : U (.completion c) := hc hcc
  refine ⟨?_, ?_, ?_⟩
  · intro v hv
    obtain ⟨a, ha, heq⟩ := map_eq_ok (Kept.value hU hu hv)
    obtain rfl := CachedValue.completion.inj heq
    exact ha.symm
  · intro found hfound
    obtain ⟨a, ha, rfl⟩ := map_eq_ok (Kept.value hU hu hfound)
    exact ⟨a, rfl, hfound⟩
  · intro v hv
    have hvalue : CacheUse.value x up (.completion c) = .ok (.completion v) := by
      show (up.create c.request).map CachedValue.completion = _
      rw [← hv]
      rfl
    exact ⟨kept_of_value hu hvalue, kept_of_value hu hvalue⟩

/-- Vectors are only kept if batches have a size. -/
def SizedVectors (x : RetrievalSetup) (U : CacheUse → Prop) : Prop :=
  ∀ t, U (.vector t) → 0 < x.llm.embeddingBatchSize

private theorem size_of_kept (hU : SizedVectors x U) {text : String} {v : CachedValue}
    (h : Kept x up U (embedKey x.sha256 x.llm.embeddingModel text) v) : 0 < x.llm.embeddingBatchSize := by
  obtain ⟨u, hu, hkey, -⟩ := h
  have hns : u.ns = (CacheUse.vector text).ns :=
    makeKey_ns u.colon_not_mem_ns (CacheUse.colon_not_mem_ns _) hkey
  cases u with
  | vector t => exact hU t hu
  | completion c => simp [CacheUse.ns] at hns
  | rewrite query => simp [CacheUse.ns] at hns
  | rerank b query hits topK => simp [CacheUse.ns] at hns

section Vectors

variable (hU : Coherent x up U) (hsized : SizedVectors x U) {text : String}
    (ht : 0 < x.llm.embeddingBatchSize → U (.vector text))
include hU hsized ht

theorem vector_finds :
    (keptKnown x up U points).Finds (embedKey x.sha256 x.llm.embeddingModel text)
      (up.current x.llm text) := by
  constructor
  · intro e he
    have hvalue := Kept.value hU (ht (size_of_kept hsized he)) he
    exact (CachedValue.vector.inj (Except.ok.inj hvalue)).symm
  · intro c hc
    have hu : U (.vector text) := ht (size_of_kept hsized hc)
    have hvalue := Kept.value hU hu hc
    exact ⟨(Except.ok.inj hvalue).symm, kept_of_value hu rfl⟩

omit hU hsized in
theorem vector_takes (hsize : 0 < x.llm.embeddingBatchSize) :
    (keptKnown x up U points).Takes (embedKey x.sha256 x.llm.embeddingModel text) (up.current x.llm text) :=
  ⟨kept_of_value (ht hsize) rfl, kept_of_value (ht hsize) rfl⟩

theorem embed_computes (hup : ∀ r, up.embedFailure r = none) :
    Computes x up U points F (embed x.sha256 x.llm [text] true) (up.embedOne x.llm text) :=
  embed_one_accords hup (vector_finds hU hsized ht) (fun _ he => size_of_kept hsized he) (vector_takes ht)

end Vectors

/-- The queries of a question. -/
theorem rewriteQuery_computes (hU : Coherent x up U) {query : String} (hrewrite : U (.rewrite query))
    (hcall : U (.completion (rewriteCall x query))) :
    Computes x up U points F (rewriteQuery x query true) (rewriteAlone x up query) := by
  refine accords_call_mayFail trivial fun r hr => ?_
  obtain ⟨found, rfl, hfound⟩ := hr
  cases found with
  | some v =>
    obtain ⟨qs, hqs, rfl⟩ := map_eq_ok (Kept.value hU hrewrite (hfound v rfl))
    rw [hqs]
    exact Or.inl rfl
  | none =>
    refine accords_bind_mayFail (complete_computes hU fun _ => hcall) fun r hr => ?_
    subst hr
    unfold rewriteAlone
    cases hanswer : up.create (rewriteCall x query).request with
    | error e => exact Or.inl rfl
    | ok resp =>
      show ((.done (queriesOf x query resp) : Llm (List String)) >>= _).Accords _ _
        (OrFails F fun r => r = queriesOf x query resp)
      cases hqs : queriesOf x query resp with
      | error e => exact Or.inl rfl
      | ok qs =>
        have hvalue : CacheUse.value x up (.rewrite query) = .ok (.queries qs) := by
          show (rewriteAlone x up query).map CachedValue.queries = _
          unfold rewriteAlone
          rw [hanswer]
          show (queriesOf x query resp).map CachedValue.queries = _
          rw [hqs]
          rfl
        refine accords_call_mayFail (kept_of_value hrewrite hvalue) fun r hr => ?_
        obtain rfl : r = .ok () := hr
        exact Or.inl rfl

/-! ### Rerank -/

/-- All scores are finite. -/
def Scores.Finite (ss : Scores) : Prop := ∀ e ∈ ss, ∃ q, e.2 = .finite q

/-- Finite scores are read as they were written. -/
theorem toScores_scoresValue {ss : Scores} (h : ss.Finite) : (scoresValue ss).toScores = .ok ss := by
  show readScores (ss.map fun e => (e.1, e.2.json)) = .ok ss
  induction ss with
  | nil => rfl
  | cons e ss ih =>
    obtain ⟨i, score⟩ := e
    obtain ⟨q, rfl⟩ : ∃ q, score = .finite q := h _ (List.mem_cons_self ..)
    have hrest := ih fun e' he' => h e' (List.mem_cons_of_mem _ he')
    show (readScores (ss.map fun e => (e.1, e.2.json)) >>= fun es => pure ((i, PyFloat.finite q) :: es)) = _
    rw [hrest]
    rfl

/-- What a reranker returns for given scores. -/
def rankBy (hits : List SearchHit) (topK : Int) (scores : Except LlmErr Scores) :
    Except LlmErr (List RankedHit) :=
  match hits with
  | [] => .ok []
  | [h] => .ok [⟨h, .finite h.score⟩]
  | hits => scores.map fun ss => materializeFloats hits (scoreAt ss) topK

theorem rankBy_of_two {hits : List SearchHit} (h : 2 ≤ hits.length) (topK : Int)
    (scores : Except LlmErr Scores) :
    rankBy hits topK scores = scores.map fun ss => materializeFloats hits (scoreAt ss) topK := by
  match hits with
  | [] => simp at h
  | [_] => simp at h
  | _ :: _ :: _ => rfl

private theorem rankBy_congr {hits : List SearchHit} {topK : Int} {scores scores' : Except LlmErr Scores}
    (h : 2 ≤ hits.length → scores = scores') : rankBy hits topK scores = rankBy hits topK scores' := by
  match hits with
  | [] => rfl
  | [_] => rfl
  | _ :: _ :: _ => rw [h (by simp)]

/-- The scores are looked up, if the cache is used, before they are fetched; those that satisfy `V` are
found, fetched and written. -/
theorem rerankThrough_answers {K : Known} {Ups : Set Upstream} {V : Except LlmErr Scores → Prop}
    {key : String} {fetch : Llm Scores} {hits : List SearchHit} {topK : Int} {useCache : Bool}
    (hfinite : 2 ≤ hits.length → useCache → ∀ ss, V (.ok ss) → ss.Finite)
    (hread : 2 ≤ hits.length → useCache → ∀ v, K.redis key v → ∃ ss, V (.ok ss) ∧ scoresValue ss = v)
    (hwrite : 2 ≤ hits.length → useCache → ∀ ss, V (.ok ss) → K.redis key (scoresValue ss))
    (hfetch : 2 ≤ hits.length → fetch.Accords (MayFail F (RepliesOf K Ups)) (Writes K) (OrFails F V)) :
    (rerankThrough key fetch hits topK useCache).Accords (MayFail F (RepliesOf K Ups)) (Writes K)
      (OrFails F fun r => ∃ scores, (2 ≤ hits.length → V scores) ∧ r = rankBy hits topK scores) := by
  match hits with
  | [] => exact Or.inl ⟨.ok [], fun h2 => absurd h2 (by simp), rfl⟩
  | [_] => exact Or.inl ⟨.ok [], fun h2 => absurd h2 (by simp), rfl⟩
  | a :: b :: rest =>
    have h2 : 2 ≤ (a :: b :: rest).length := by simp
    have hmiss : ((fetch >>= fun ss => do
        if useCache ∧ ss ≠ [] then llm (.cacheSet key (scoresValue ss) 600)
        return materializeFloats (a :: b :: rest) (scoreAt ss) topK : Llm (List RankedHit))).Accords
          (MayFail F (RepliesOf K Ups)) (Writes K)
          (OrFails F fun r => ∃ scores, (2 ≤ (a :: b :: rest).length → V scores) ∧
            r = rankBy (a :: b :: rest) topK scores) := by
      refine accords_bind_mayFail (hfetch h2) fun scores hscores => ?_
      cases scores with
      | error e => exact Or.inl ⟨.error e, fun _ => hscores, rfl⟩
      | ok ss =>
        rw [cont_ok]
        by_cases hkeep : useCache = true ∧ ss ≠ []
        · rw [if_pos hkeep]
          refine accords_call_mayFail (hwrite h2 hkeep.1 ss hscores) fun r hr => ?_
          obtain ⟨_, _, rfl⟩ : ∃ up ∈ Ups, r = .ok () := hr
          exact Or.inl ⟨.ok ss, fun _ => hscores, rfl⟩
        · rw [if_neg hkeep]
          exact Or.inl ⟨.ok ss, fun _ => hscores, rfl⟩
    cases useCache with
    | false => exact hmiss
    | true =>
      refine accords_bind_mayFail (m := fun r => r = .ok none ∨ ∃ ss, r = .ok (some ss) ∧ V (.ok ss)) ?_
        fun r hr => ?_
      · show (lookupScores key).Accords _ _ _
        refine accords_call_mayFail trivial fun r hr => ?_
        obtain ⟨_, _, found, rfl, hfound⟩ := hr
        cases found with
        | none => exact Or.inl (Or.inl rfl)
        | some v =>
          obtain ⟨ss, hss, rfl⟩ := hread h2 rfl v (hfound v rfl)
          show ((.done (scoresValue ss).toScores : Llm Scores) >>= fun ss =>
            pure (if ss = [] then none else some ss)).Accords _ _ _
          rw [toScores_scoresValue (hfinite h2 rfl ss hss), done_bind, cont_ok]
          by_cases hempty : ss = []
          · rw [if_pos hempty]
            exact Or.inl (Or.inl rfl)
          · rw [if_neg hempty]
            exact Or.inl (Or.inr ⟨ss, rfl, hss⟩)
      · rcases hr with rfl | ⟨ss, rfl, hss⟩
        · exact hmiss
        · exact Or.inl ⟨.ok ss, fun _ => hss, rfl⟩

/-- Where the scores are determined, the result is. -/
private theorem rerankThrough_computes {key : String} {fetch : Llm Scores} {hits : List SearchHit}
    {topK : Int} {useCache : Bool} {scores : Except LlmErr Scores}
    (hfinite : 2 ≤ hits.length → useCache → ∀ ss, scores = .ok ss → ss.Finite)
    (hread : 2 ≤ hits.length → useCache → ∀ v, Kept x up U key v → ∃ ss, scores = .ok ss ∧ scoresValue ss = v)
    (hwrite : 2 ≤ hits.length → useCache → ∀ ss, scores = .ok ss → Kept x up U key (scoresValue ss))
    (hfetch : 2 ≤ hits.length → Computes x up U points F fetch scores) :
    Computes x up U points F (rerankThrough key fetch hits topK useCache) (rankBy hits topK scores) := by
  have hone : ∀ o r, Replies (keptKnown x up U points) up o r ↔
      RepliesOf (keptKnown x up U points) {up} o r := by
    intro o r
    exact ⟨fun hr => ⟨up, rfl, hr⟩, fun ⟨_, hup, hr⟩ => hup ▸ hr⟩
  have hanswers : (rerankThrough key fetch hits topK useCache).Accords
    (MayFail F (RepliesOf (keptKnown x up U points) {up})) (Writes (keptKnown x up U points))
      (OrFails F fun r => ∃ scores', (2 ≤ hits.length → scores' = scores) ∧
        r = rankBy hits topK scores') := by
    refine rerankThrough_answers (V := fun r => r = scores)
      (fun h2 huse ss hss => hfinite h2 huse ss hss.symm) ?_ ?_ ?_
    · exact fun h2 huse v hv => (hread h2 huse v hv).imp fun ss hss => ⟨hss.1.symm, hss.2⟩
    · exact fun h2 huse ss hss => hwrite h2 huse ss hss.symm
    · exact fun h2 => (hfetch h2).imp fun o r => MayFail.imp fun o r hr => (hone o r).mpr hr
  refine (hanswers.imp fun o r => MayFail.imp fun o r hr => (hone o r).mp hr).mono fun r hr =>
    hr.imp_left ?_
  rintro ⟨scores', hsame, rfl⟩
  exact rankBy_congr hsame

section Backends

variable {query : String} {hits : List SearchHit} {topK : Int}

private theorem llmScores_computes (hU : Coherent x up U)
    (hcall : U (.completion (rerankCall x query hits topK))) :
    Computes x up U points F (llmScores x query hits topK) (Backend.llm.scores x up query hits topK) := by
  refine accords_bind_mayFail (complete_computes hU fun _ => hcall) fun r hr => ?_
  subst hr
  unfold Backend.scores
  cases up.create (rerankCall x query hits topK).request with
  | error e => exact Or.inl rfl
  | ok resp => exact Or.inl rfl

private theorem fetchCohere_computes :
    Computes x up U points F (fetchCohere x query hits) (Backend.cohere.scores x up query hits topK) := by
  refine accords_call_mayFail trivial fun r hr => ?_
  obtain rfl : r = up.rerank (cohereRequest x query hits) := hr
  unfold Backend.scores
  cases up.rerank (cohereRequest x query hits) with
  | error e => exact Or.inl rfl
  | ok results => exact Or.inl rfl

private theorem Scores.Finite.add {ss : Scores} (h : ss.Finite) (n : Nat) (i : Int) (q : ℚ) :
    (addScore n ss i (.finite q)).Finite := by
  unfold addScore setScore
  intro e he
  by_cases hrange : 0 ≤ i ∧ i < n
  · rw [if_pos hrange] at he
    by_cases hany : (ss.any fun e => e.1 = i.toNat) = true
    · rw [if_pos hany] at he
      obtain ⟨e', he', rfl⟩ := List.mem_map.mp he
      split
      · exact ⟨q, rfl⟩
      · exact h e' he'
    · rw [if_neg hany] at he
      rcases List.mem_append.mp he with hold | hnew
      · exact h e hold
      · obtain rfl := List.mem_singleton.mp hnew
        exact ⟨q, rfl⟩
  · rw [if_neg hrange] at he
    exact h e he

theorem cohereScores_finite (n : Nat) (results : List (Int × ℚ)) : (cohereScores n results).Finite := by
  have hfold : ∀ ss : Scores, ss.Finite →
      (results.foldl (fun ss r => addScore n ss r.1 (.finite r.2)) ss).Finite := by
    induction results with
    | nil => exact fun ss hss => hss
    | cons r results ih => exact fun ss hss => ih _ (hss.add n r.1 r.2)
  refine hfold [] ?_
  intro e he
  cases he

/-- The replies of the model have finite scores only. -/
def FiniteReplies (x : RetrievalSetup) (up : Upstream) : Prop :=
  ∀ r resp n ss, up.create r = .ok resp → scoresOf x n resp = .ok ss → Scores.Finite ss

private theorem Backend.scores_finite (hup : FiniteReplies x up) {b : Backend} {ss : Scores}
    (h : b.scores x up query hits topK = .ok ss) : ss.Finite := by
  cases b with
  | cohere =>
    obtain ⟨results, -, rfl⟩ : ∃ results, up.rerank (cohereRequest x query hits) = .ok results ∧
        cohereScores hits.length results = ss := map_eq_ok h
    exact cohereScores_finite _ _
  | llm =>
    unfold Backend.scores at h
    cases hanswer : up.create (rerankCall x query hits topK).request with
    | error e =>
      rw [hanswer] at h
      cases h
    | ok resp =>
      rw [hanswer] at h
      exact hup _ resp _ ss hanswer h

/-- `llm_rerank` or `cohere_rerank`. -/
def Backend.run (x : RetrievalSetup) (query : String) (hits : List SearchHit) (topK : Int) (useCache : Bool) :
    Backend → Llm (List RankedHit)
  | .cohere => cohereRerank x query hits topK useCache
  | .llm => llmRerank x query hits topK useCache

/-- What it returns if no call fails on the way. -/
def Backend.alone (x : RetrievalSetup) (up : Upstream) (query : String) (hits : List SearchHit)
    (topK : Int) (b : Backend) : Except LlmErr (List RankedHit) :=
  rankBy hits topK (b.scores x up query hits topK)

/-- The uses of the caches by a reranker. -/
structure Backend.Uses (x : RetrievalSetup) (U : CacheUse → Prop) (query : String) (hits : List SearchHit)
    (topK : Int) (useCache : Bool) (b : Backend) : Prop where
  scores : useCache → U (.rerank b query hits topK)
  call : b = .llm → U (.completion (rerankCall x query hits topK))

theorem Backend.run_computes (hU : Coherent x up U) {b : Backend} {useCache : Bool}
    (hfinite : 2 ≤ hits.length → useCache → ∀ ss, b.scores x up query hits topK = .ok ss → ss.Finite)
    (huses : 2 ≤ hits.length → b.Uses x U query hits topK useCache) :
    Computes x up U points F (b.run x query hits topK useCache) (b.alone x up query hits topK) := by
  have hread : 2 ≤ hits.length → useCache → ∀ v, Kept x up U (CacheUse.key x (.rerank b query hits topK)) v →
      ∃ ss, b.scores x up query hits topK = .ok ss ∧ scoresValue ss = v :=
    fun h2 huse v hv => map_eq_ok (Kept.value hU ((huses h2).scores huse) hv)
  have hwrite : 2 ≤ hits.length → useCache → ∀ ss, b.scores x up query hits topK = .ok ss →
      Kept x up U (CacheUse.key x (.rerank b query hits topK)) (scoresValue ss) := by
    intro h2 huse ss hss
    refine kept_of_value ((huses h2).scores huse) ?_
    show (b.scores x up query hits topK).map scoresValue = _
    rw [hss]
    rfl
  cases b with
  | cohere => exact rerankThrough_computes hfinite hread hwrite fun _ => fetchCohere_computes
  | llm =>
    exact rerankThrough_computes hfinite hread hwrite fun h2 =>
      llmScores_computes hU ((huses h2).call rfl)

/-- What `rerank` returns if no call fails on the way. -/
def rerankAlone (x : RetrievalSetup) (up : Upstream) (query : String) (hits : List SearchHit) (topK : Int) :
    Except LlmErr (List RankedHit) :=
  if hits = [] then .ok []
  else if x.rerank.cohereEnabled then
    match Backend.cohere.alone x up query (candidates x hits) topK with
    | .ok ranked => .ok ranked
    | .error _ => Backend.llm.alone x up query (candidates x hits) topK
  else Backend.llm.alone x up query (candidates x hits) topK

private theorem rankBy_error {scores : Except LlmErr Scores} {e : LlmErr}
    (h : rankBy hits topK scores = .error e) : 2 ≤ hits.length ∧ scores = .error e := by
  match hits with
  | [] => cases h
  | [_] => cases h
  | a :: b :: rest =>
    refine ⟨by simp, ?_⟩
    cases scores with
    | error e' => exact congrArg Except.error (Except.error.inj h)
    | ok ss => cases h

/-- Unless calls fail on the way, the result is that of the reranker whose turn it is. -/
theorem rerank_accords (hU : Coherent x up U) (hup : FiniteReplies x up)
    (huses : ∀ b : Backend, b.Active x up F → 2 ≤ (candidates x hits).length →
      b.Uses x U query (candidates x hits) topK true) :
    (rerank x query hits topK true).Accords (MayFail F (Replies (keptKnown x up U points) up))
      (Writes (keptKnown x up U points)) fun r => r = rerankAlone x up query hits topK ∨ F := by
  unfold rerank rerankAlone
  by_cases hnil : hits = []
  · rw [if_pos hnil, if_pos hnil]
    exact Or.inl rfl
  rw [if_neg hnil, if_neg hnil]
  have hllm : Backend.llm.Active x up F → (llmRerank x query (candidates x hits) topK true).Accords
      (MayFail F (Replies (keptKnown x up U points) up)) (Writes (keptKnown x up U points)) fun r =>
        r = Backend.llm.alone x up query (candidates x hits) topK ∨ F := by
    intro hactive
    have hcomputes : Computes x up U points F (Backend.llm.run x query (candidates x hits) topK true)
        (Backend.llm.alone x up query (candidates x hits) topK) :=
        Backend.run_computes hU (fun _ _ _ => Backend.scores_finite hup) (huses .llm hactive)
    exact hcomputes.mono fun r hr => hr.imp id And.left
  by_cases hcohere : x.rerank.cohereEnabled = true
  · rw [if_pos hcohere, if_pos hcohere]
    have hcomputes : Computes x up U points F (Backend.cohere.run x query (candidates x hits) topK true)
        (Backend.cohere.alone x up query (candidates x hits) topK) :=
        Backend.run_computes hU (fun _ _ _ => Backend.scores_finite hup) (huses .cohere hcohere)
    refine accords_handle (hcomputes.mono fun r hr => ?_)
    rcases hr with rfl | ⟨hF, e, rfl⟩
    · cases halone : Backend.cohere.alone x up query (candidates x hits) topK with
      | ok ranked => exact Or.inl rfl
      | error e =>
        refine hllm fun _ => Or.inr ?_
        obtain ⟨-, hscores⟩ := rankBy_error halone
        cases hanswer : up.rerank (cohereRequest x query (candidates x hits)) with
        | error e' => exact ⟨_, e', hanswer⟩
        | ok results =>
          unfold Backend.scores at hscores
          rw [hanswer] at hscores
          cases hscores
    · exact (hllm fun _ => Or.inl hF).mono fun r _ => Or.inr hF
  · rw [if_neg hcohere, if_neg hcohere]
    exact hllm fun henabled => absurd henabled hcohere

end Backends

end LegalRag
