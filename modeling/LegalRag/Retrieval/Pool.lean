import LegalRag.Lists.Best
import LegalRag.Retrieval.Isolation

/-!
# The pool of candidates

The loop of `retrieve_and_rerank` over the results of its searches, and the cut after it.  A search result
depends on which search answers first, so the order of the batches, and of hits with one score inside
them, is open.

* `bestOf_dedupe`: the loop keeps the best hit of every point;
* `poolOf_spec`: what the pool is (`GoodPool`), and what of it does not depend on the order of the
results.
-/

namespace LegalRag

open Best Ranked

section Loop

variable {byId l : List SearchHit} (a : SearchHit)

/-- The loop never loses a point, nor lowers its score. -/
private theorem keepBest_covers_old {e : SearchHit} (he : e ∈ byId) :
    ∃ b ∈ keepBest byId a, b.pointId = e.pointId ∧ e.score ≤ b.score := by
  unfold keepBest
  by_cases hany : (byId.any fun e => e.pointId = a.pointId) = true
  · rw [if_pos hany]
    by_cases hbetter : e.pointId = a.pointId ∧ e.score < a.score
    · exact ⟨a, List.mem_map.mpr ⟨e, he, if_pos hbetter⟩, hbetter.1.symm, le_of_lt hbetter.2⟩
    · exact ⟨e, List.mem_map.mpr ⟨e, he, if_neg hbetter⟩, rfl, le_refl _⟩
  · rw [if_neg hany]
    exact ⟨e, List.mem_append_left _ he, rfl, le_refl _⟩

private theorem keepBest_covers_new : ∃ b ∈ keepBest byId a, b.pointId = a.pointId ∧ a.score ≤ b.score := by
  unfold keepBest
  by_cases hany : (byId.any fun e => e.pointId = a.pointId) = true
  · rw [if_pos hany]
    obtain ⟨e, he, hid⟩ := List.any_eq_true.mp hany
    have hid : e.pointId = a.pointId := of_decide_eq_true hid
    by_cases hbetter : e.score < a.score
    · exact ⟨a, List.mem_map.mpr ⟨e, he, if_pos ⟨hid, hbetter⟩⟩, rfl, le_refl _⟩
    · exact ⟨e, List.mem_map.mpr ⟨e, he, if_neg fun h => hbetter h.2⟩, hid, not_lt.mp hbetter⟩
  · rw [if_neg hany]
    exact ⟨a, by simp, rfl, le_refl _⟩

/-- One hit. -/
private theorem bestOf_keepBest (h : BestOf SearchHit.pointId SearchHit.score l byId) :
    BestOf SearchHit.pointId SearchHit.score (l ++ [a]) (keepBest byId a) where
  nodup := nodup_keepBest h.nodup
  mem b hb := by
    rcases mem_keepBest hb with hold | rfl
    · exact List.mem_append_left _ (h.mem b hold)
    · simp
  covers c hc := by
    rcases List.mem_append.mp hc with hold | hnew
    · obtain ⟨e, he, hid, hle⟩ := h.covers c hold
      obtain ⟨b, hb, hid', hle'⟩ := keepBest_covers_old a he
      exact ⟨b, hb, hid'.trans hid, le_trans hle hle'⟩
    · obtain rfl := List.mem_singleton.mp hnew
      exact keepBest_covers_new c

private theorem bestOf_foldl (hits : List SearchHit) (h : BestOf SearchHit.pointId SearchHit.score l byId) :
    BestOf SearchHit.pointId SearchHit.score (l ++ hits) (hits.foldl keepBest byId) := by
  induction hits generalizing l byId with
  | nil => simpa using h
  | cons a hits ih =>
    have hrest := ih (bestOf_keepBest a h)
    rwa [List.append_assoc, List.singleton_append] at hrest

theorem bestOf_dedupe (results : List (List SearchHit)) :
    BestOf SearchHit.pointId SearchHit.score results.flatten (dedupe results) :=
  bestOf_foldl results.flatten BestOf.nil

end Loop

/-- A pool of the best hits: no point twice, each with its highest score, the highest first, as many as
there are up to twice the size of a search, and none left out that is better than one inside. -/
structure GoodPool (topKSearch : Nat) (results : List (List SearchHit)) (pool : List SearchHit) : Prop where
  nodup : (pool.map SearchHit.pointId).Nodup
  found : ∀ h ∈ pool, h ∈ results.flatten
  highest : ∀ h ∈ pool, ∀ a ∈ results.flatten, a.pointId = h.pointId → a.score ≤ h.score
  sorted : pool.Pairwise fun a b => b.score ≤ a.score
  size : pool.length = min (results.flatten.map SearchHit.pointId).dedup.length (2 * topKSearch)
  cut : ∀ a ∈ results.flatten, a.pointId ∉ pool.map SearchHit.pointId → ∀ h ∈ pool, a.score ≤ h.score

/-- The batches in another order, and the hits of each in another order. -/
def Rearranged (results results' : List (List SearchHit)) : Prop :=
  ∃ batches, results.Perm batches ∧ List.Forall₂ List.Perm batches results'

private theorem Rearranged.flatten {results results' : List (List SearchHit)}
    (h : Rearranged results results') : results.flatten.Perm results'.flatten := by
  obtain ⟨batches, hbatches, hhits⟩ := h
  exact hbatches.flatten.trans (List.Perm.flatten_congr hhits)

variable (k : Nat) (results : List (List SearchHit))

private theorem poolOf_eq_take :
    poolOf k results = (ranked SearchHit.score (dedupe results)).take (2 * k) := by
  have hpos : ¬ ((k : Int) * 2 < 0) := by omega
  have hcut : ((k : Int) * 2).toNat = 2 * k := by omega
  rw [poolOf, Redis.sliceTo, Redis.position, if_neg hpos, hcut]

private theorem goodPool_poolOf : GoodPool k results (poolOf k results) := by
  have hbest := bestOf_dedupe results
  have hperm := perm_ranked SearchHit.score (dedupe results)
  have hsorted := pairwise_ranked SearchHit.score (dedupe results)
  have hmem : ∀ h ∈ poolOf k results, h ∈ dedupe results := by
    intro h hh
    rw [poolOf_eq_take] at hh
    exact mem_ranked.mp (List.mem_of_mem_take hh)
  refine ⟨?_, ?_, ?_, ?_, ?_, ?_⟩
  · have hnodup := (hperm.map SearchHit.pointId).nodup_iff.mpr hbest.nodup
    rw [poolOf_eq_take]
    exact hnodup.sublist ((List.take_sublist _ _).map _)
  · intro h hh
    exact hbest.mem h (hmem h hh)
  · intro h hh a ha hid
    exact hbest.le_of_key ha (hmem h hh) hid
  · rw [poolOf_eq_take]
    exact hsorted.sublist (List.take_sublist _ _)
  · rw [poolOf_eq_take, List.length_take, length_ranked, hbest.length_eq, Nat.min_comm]
  · intro a ha hout h hh
    obtain ⟨b, hb, hid, hle⟩ := hbest.covers a ha
    have hb' : b ∈ ranked SearchHit.score (dedupe results) := mem_ranked.mpr hb
    rw [← List.take_append_drop (2 * k) (ranked SearchHit.score (dedupe results)), ← poolOf_eq_take]
      at hb' hsorted
    rcases List.mem_append.mp hb' with hin | hcut
    · exact absurd (hid ▸ List.mem_map_of_mem hin) hout
    · exact le_trans hle ((List.pairwise_append.mp hsorted).2.2 h hh b hcut)

/-- The pool that is handed to the reranker is a good one; in whatever order the results come, its scores
are the same, and so are its points if the scores on both sides of the cut differ. -/
theorem poolOf_spec :
    GoodPool k results (poolOf k results) ∧
    ∀ results', Rearranged results results' →
      (poolOf k results').map SearchHit.score = (poolOf k results).map SearchHit.score ∧
      (CutApart SearchHit.score (dedupe results) (2 * k) →
        ∀ id, id ∈ (poolOf k results').map SearchHit.pointId ↔
          id ∈ (poolOf k results).map SearchHit.pointId) := by
  refine ⟨goodPool_poolOf k results, ?_⟩
  intro results' hre
  have hbest := bestOf_dedupe results
  have hbest' := bestOf_dedupe results'
  have hflat := hre.flatten
  rw [poolOf_eq_take, poolOf_eq_take]
  constructor
  · rw [List.map_take, List.map_take, hbest.scores_ranked hbest' hflat]
  · intro hcut id
    constructor
    · exact hbest'.keys_take_ranked hbest hflat.symm (hbest.cutApart hbest' hflat hcut)
    · exact hbest.keys_take_ranked hbest' hflat hcut

end LegalRag
