import LegalRag.Lists.Ranked
import LegalRag.Redis.Lists
import LegalRag.Retrieval.Search

/-!
# Scored hits and hits that the reranker left out

`_materialize` of `src/retrieval/rerank.py` sorts the hits by the score of the reranker, or by half their
score in the search if the reranker left them out.  The scored ones take priority exactly if every hit
that was left out, and that half its score puts before a scored one, is cut off (`reranked_first_iff`).
-/

namespace LegalRag

structure RerankResult where
  hit : SearchHit
  score : ℚ
  deriving DecidableEq, Repr

/-- The result for a hit and its position: the score of the reranker, or half the score of the hit. -/
def rerankResult (idToScore : Nat → Option ℚ) (x : SearchHit × Nat) : RerankResult :=
  ⟨x.1, (idToScore x.2).getD (x.1.score * (1 / 2))⟩

/-- `_materialize`. -/
def materialize (hits : List SearchHit) (idToScore : Nat → Option ℚ) (topK : Int) : List RerankResult :=
  Redis.sliceTo topK (Ranked.ranked RerankResult.score (hits.zipIdx.map (rerankResult idToScore)))

/-- The hits of the output, with their positions in the input. -/
def keptHits (hits : List SearchHit) (idToScore : Nat → Option ℚ) (topK : Int) : List (SearchHit × Nat) :=
  Redis.sliceTo topK (Ranked.ranked (fun x => (rerankResult idToScore x).score) hits.zipIdx)

private theorem materialize_eq (hits : List SearchHit) (idToScore : Nat → Option ℚ) (topK : Int) :
    materialize hits idToScore topK = (keptHits hits idToScore topK).map (rerankResult idToScore) := by
  unfold materialize keptHits Redis.sliceTo
  rw [Ranked.ranked_map, List.map_take, List.length_map]

/-- In the output no hit that the reranker left out comes before one that it scored, and none is kept
while a scored one is cut off. -/
structure RerankedFirst (hits : List SearchHit) (idToScore : Nat → Option ℚ) (topK : Int) : Prop where
  output : materialize hits idToScore topK = (keptHits hits idToScore topK).map (rerankResult idToScore)
  order : (keptHits hits idToScore topK).Pairwise fun x y =>
    ¬ (idToScore x.2 = none ∧ idToScore y.2 ≠ none)
  cut : ∀ x ∈ keptHits hits idToScore topK, idToScore x.2 = none →
    ∀ y ∈ hits.zipIdx, idToScore y.2 ≠ none → y ∈ keptHits hits idToScore topK

/-- A hit is put before another one: its score is higher, or the scores are equal and it comes first in
the input. -/
def RankedBefore (idToScore : Nat → Option ℚ) : SearchHit × Nat → SearchHit × Nat → Prop :=
  Ranked.Before (fun x => (rerankResult idToScore x).score) Prod.snd

instance (idToScore : Nat → Option ℚ) (x y : SearchHit × Nat) : Decidable (RankedBefore idToScore x y) :=
  inferInstanceAs (Decidable (Ranked.Before ..))

section Priority

variable {hits : List SearchHit} {idToScore : Nat → Option ℚ} {topK : Int} {x y : SearchHit × Nat}

private theorem zipIdx_pairwise (hits : List SearchHit) : hits.zipIdx.Pairwise fun x y => x.2 < y.2 := by
  have hpositions : (hits.zipIdx.map Prod.snd).Pairwise (· < ·) := by
    rw [List.zipIdx_map_snd]
    exact List.pairwise_lt_range'
  exact List.pairwise_map.mp hpositions

private theorem mem_keptHits (hx : x ∈ hits.zipIdx) :
    x ∈ keptHits hits idToScore topK ↔
      hits.zipIdx.countP (fun z => RankedBefore idToScore z x) < (Redis.position hits.length topK).toNat := by
  unfold keptHits Redis.sliceTo
  rw [Ranked.length_ranked, List.length_zipIdx]
  exact Ranked.mem_take_iff (zipIdx_pairwise hits) hx _

private theorem keptHits_pairwise (hits : List SearchHit) (idToScore : Nat → Option ℚ) (topK : Int) :
    (keptHits hits idToScore topK).Pairwise (RankedBefore idToScore) :=
  (Ranked.pairwise_before (zipIdx_pairwise hits)).sublist (List.take_sublist _ _)

/-- Of two different hits one is put before the other. -/
private theorem rankedBefore_total (hne : x.2 ≠ y.2) :
    RankedBefore idToScore x y ∨ RankedBefore idToScore y x := by
  rcases lt_trichotomy (rerankResult idToScore x).score (rerankResult idToScore y).score with hlt | heq | hgt
  · exact Or.inr (Or.inl hlt)
  · rcases Nat.lt_or_gt_of_ne hne with hlt | hgt
    · exact Or.inl (Or.inr ⟨heq.symm, hlt⟩)
    · exact Or.inr (Or.inr ⟨heq, hgt⟩)
  · exact Or.inl (Or.inl hgt)

/-- A hit that was left out and is put before a scored one is cut off. -/
private theorem RerankedFirst.not_kept (h : RerankedFirst hits idToScore topK) (hy : y ∈ hits.zipIdx)
    (hleft : idToScore x.2 = none) (hscored : idToScore y.2 ≠ none) (hbefore : RankedBefore idToScore x y) :
    x ∉ keptHits hits idToScore topK := by
  intro hx
  have hkept : y ∈ keptHits hits idToScore topK := h.cut x hx hleft y hy hscored
  have hne : x ≠ y := by
    rintro rfl
    exact hscored hleft
  -- the two stand in the output in the order of their scores, one way or the other
  have hboth := h.order.and (keptHits_pairwise hits idToScore topK)
  rcases Ranked.rel_or_rel hboth hx hkept hne with ⟨hnot, -⟩ | ⟨-, hafter⟩
  · exact hnot ⟨hleft, hscored⟩
  · exact hbefore.asymm hafter

private theorem rerankedFirst_of (h : ∀ x ∈ hits.zipIdx, ∀ y ∈ hits.zipIdx, idToScore x.2 = none →
    idToScore y.2 ≠ none →
    RankedBefore idToScore x y → x ∉ keptHits hits idToScore topK) : RerankedFirst hits idToScore topK := by
  have hsub : ∀ x ∈ keptHits hits idToScore topK, x ∈ hits.zipIdx :=
    fun x hx => Ranked.mem_ranked.mp (List.mem_of_mem_take hx)
  refine ⟨materialize_eq hits idToScore topK, ?_, ?_⟩
  · refine (keptHits_pairwise hits idToScore topK).imp_of_mem ?_
    intro x y hx hy hbefore hor
    exact h x (hsub x hx) y (hsub y hy) hor.1 hor.2 hbefore hx
  · intro x hx hleft y hy hscored
    have hne : x.2 ≠ y.2 := by
      intro heq
      rw [heq] at hleft
      exact hscored hleft
    have htotal : RankedBefore idToScore x y ∨ RankedBefore idToScore y x := rankedBefore_total hne
    rcases htotal with hbefore | hbefore
    · exact absurd hx (h x (hsub x hx) y hy hleft hscored hbefore)
    · exact Ranked.mem_take_of_before (zipIdx_pairwise hits) hy hx hbefore

end Priority

/-- The scored hits take priority exactly if, whenever a hit that was left out is put before a scored one,
there is no room for it in the output. -/
theorem reranked_first_iff (hits : List SearchHit) (idToScore : Nat → Option ℚ) (topK : Int) :
    RerankedFirst hits idToScore topK ↔ ∀ x ∈ hits.zipIdx, ∀ y ∈ hits.zipIdx, idToScore x.2 = none →
    idToScore y.2 ≠ none →
      RankedBefore idToScore x y → (Redis.position hits.length topK).toNat ≤ hits.zipIdx.countP fun z =>
        RankedBefore idToScore z x := by
  constructor
  · intro h x hx y hy hleft hscored hbefore
    have hnot := h.not_kept hy hleft hscored hbefore
    rw [mem_keptHits hx] at hnot
    exact Nat.le_of_not_lt hnot
  · intro h
    refine rerankedFirst_of ?_
    intro x hx y hy hleft hscored hbefore
    rw [mem_keptHits hx]
    exact Nat.not_lt_of_le (h x hx y hy hleft hscored hbefore)

/-- Two hits, the first with a high score in the search. -/
def twoHits : List SearchHit :=
  [⟨"p", 9 / 10, "d", "Luật", 0, none, none, none, "Điều 1"⟩,
    ⟨"q", 1 / 2, "d", "Luật", 1, none, none, none, "Điều 2"⟩]

/-- The reranker leaves the first hit out and gives the second one a low score. -/
def secondScored : Nat → Option ℚ := fun i => if i = 1 then some (3 / 10) else none

/-- A hit that the reranker left out can come first. -/
theorem not_always_reranked_first :
    ¬ ∀ (hits : List SearchHit) (idToScore : Nat → Option ℚ) (topK : Int),
      (∀ i score, idToScore i = some score → 0 ≤ score ∧ score ≤ 1) → RerankedFirst hits idToScore topK := by
  intro h
  have hunit : ∀ i score, secondScored i = some score → 0 ≤ score ∧ score ≤ 1 := by
    intro i score hi
    unfold secondScored at hi
    split at hi
    · obtain rfl := Option.some.inj hi
      decide +kernel
    · cases hi
  have hfirst := h twoHits secondScored 5 hunit
  refine absurd ?_ (hfirst.not_kept (x := (twoHits.zipIdx[0])) (y := (twoHits.zipIdx[1])) ?_ rfl ?_ ?_)
  all_goals decide +kernel

end LegalRag
