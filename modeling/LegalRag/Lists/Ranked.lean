import Mathlib.Data.List.Pairwise
import Mathlib.Data.List.Sort
import Mathlib.Algebra.Order.Ring.Rat

/-!
# Stable sorting by descending score

`l.sort(key=score, reverse=True)` of Python: the highest score first, and elements with one score in their
old order.

* `score_le_head`: the first element has the highest score;
* `pairwise_ranked`: the scores descend; `pairwise_before` says the same with the old order of the
elements;
* `mem_take_iff`: an element is among the first `n` if fewer than `n` come before it;
* `scores_eq_of_perm`: the scores do not depend on the old order;
* `mem_take_iff_countP`: where the scores on both sides of the cut after `n` elements differ (`CutApart`),
the scores alone tell which elements are among the first `n`.
-/

namespace Ranked

variable {α β : Type} {score : α → ℚ} {l : List α}

/-- The list in the order of descending scores. -/
def ranked (score : α → ℚ) (l : List α) : List α := l.insertionSort fun a b => score b ≤ score a

theorem perm_ranked (score : α → ℚ) (l : List α) : (ranked score l).Perm l := List.perm_insertionSort _ l

@[simp] theorem mem_ranked {x : α} : x ∈ ranked score l ↔ x ∈ l := (perm_ranked score l).mem_iff

@[simp] theorem length_ranked : (ranked score l).length = l.length := (perm_ranked score l).length_eq

theorem ranked_map {f : α → β} {score : β → ℚ} :
    ranked score (l.map f) = (ranked (fun a => score (f a)) l).map f :=
  (List.map_insertionSort _ _ f l fun _ _ _ _ => Iff.rfl).symm

/-- A relation that follows the scores, and the order where they are equal, is kept by an insertion. -/
private theorem pairwise_orderedInsert {R : α → α → Prop} {a : α} (hR : ∀ x y, R x y → score y ≤ score x)
    (hlower : ∀ x, score x < score a → R a x) (heq : ∀ x ∈ l, score x = score a → R a x)
    (hhigher : ∀ x, score a < score x → R x a) (h : l.Pairwise R) :
    (l.orderedInsert (fun a b => score b ≤ score a) a).Pairwise R := by
  induction l with
  | nil => exact List.pairwise_singleton R a
  | cons b l ih =>
    rw [List.pairwise_cons] at h
    have hafter : ∀ x ∈ b :: l, score x ≤ score a → R a x := by
      intro x hx hle
      rcases lt_or_eq_of_le hle with hlt | hsame
      · exact hlower x hlt
      · exact heq x hx hsame
    rw [List.orderedInsert_cons]
    by_cases hle : score b ≤ score a
    · rw [if_pos hle]
      refine List.pairwise_cons.mpr ⟨?_, List.pairwise_cons.mpr h⟩
      intro x hx
      rcases List.mem_cons.mp hx with rfl | hmem
      · exact hafter x hx hle
      · exact hafter x hx (le_trans (hR b x (h.1 x hmem)) hle)
    · rw [if_neg hle]
      refine List.pairwise_cons.mpr ⟨?_, ih (fun x hx => heq x (List.mem_cons_of_mem b hx)) h.2⟩
      intro x hx
      rcases (List.mem_orderedInsert _).mp hx with rfl | hmem
      · exact hhigher b (not_le.mp hle)
      · exact h.1 x hmem

theorem pairwise_ranked (score : α → ℚ) (l : List α) :
    (ranked score l).Pairwise fun a b => score b ≤ score a := by
  induction l with
  | nil => exact List.Pairwise.nil
  | cons a l ih =>
    exact pairwise_orderedInsert (fun _ _ h => h) (fun _ h => le_of_lt h) (fun _ _ h => le_of_eq h)
      (fun _ h => le_of_lt h) ih

/-- The first element has the highest score. -/
theorem score_le_head {a : α} (h : (ranked score l).head? = some a) {x : α} (hx : x ∈ l) :
    score x ≤ score a := by
  have hsorted := pairwise_ranked score l
  have hmem : x ∈ ranked score l := mem_ranked.mpr hx
  obtain ⟨rest, hrest⟩ := List.head?_eq_some_iff.mp h
  rw [hrest] at hsorted hmem
  rcases List.mem_cons.mp hmem with rfl | hmem
  · exact le_refl _
  · exact (List.pairwise_cons.mp hsorted).1 x hmem

/-- With a higher score, or with the same score and a lower index. -/
def Before (score : α → ℚ) (index : α → Nat) (a b : α) : Prop :=
  score b < score a ∨ score b = score a ∧ index a < index b

/-- Elements with one score keep their order. -/
theorem pairwise_before {index : α → Nat} (h : l.Pairwise fun a b => index a < index b) :
    (ranked score l).Pairwise (Before score index) := by
  induction l with
  | nil => exact List.Pairwise.nil
  | cons a l ih =>
    obtain ⟨hfirst, hrest⟩ := List.pairwise_cons.mp h
    refine pairwise_orderedInsert ?_ ?_ ?_ ?_ (ih hrest)
    · intro x y hxy
      rcases hxy with hlt | ⟨heq, -⟩
      · exact le_of_lt hlt
      · exact le_of_eq heq
    · intro x hlt
      exact Or.inl hlt
    · intro x hx heq
      exact Or.inr ⟨heq, hfirst x (mem_ranked.mp hx)⟩
    · intro x hlt
      exact Or.inl hlt

section Before

variable {index : α → Nat} {a b c : α}

instance (score : α → ℚ) (index : α → Nat) (a b : α) : Decidable (Before score index a b) :=
  inferInstanceAs (Decidable (_ ∨ _ ∧ _))

theorem Before.asymm (h : Before score index a b) : ¬ Before score index b a := by
  intro h'
  rcases h with hlt | ⟨heq, hidx⟩
  · rcases h' with hlt' | ⟨heq', -⟩
    · exact lt_asymm hlt hlt'
    · exact absurd heq' (ne_of_gt hlt)
  · rcases h' with hlt' | ⟨-, hidx'⟩
    · exact absurd heq (ne_of_gt hlt')
    · exact Nat.lt_asymm hidx hidx'

end Before

/-- In a list in which every element is in the relation to the later ones, the place of an element is the
number of those that are in the relation to it. -/
private theorem mem_take_of_pairwise {R : α → α → Prop} [DecidableRel R] (hasymm : ∀ a b, R a b → ¬ R b a)
    {L : List α}
    (h : L.Pairwise R) {x : α} (hx : x ∈ L) (n : Nat) : x ∈ L.take n ↔ L.countP (fun z => R z x) < n := by
  induction L generalizing n with
  | nil => cases hx
  | cons a L ih =>
    obtain ⟨hfirst, hrest⟩ := List.pairwise_cons.mp h
    have hirrefl : ¬ R a a := fun haa => hasymm a a haa haa
    by_cases heq : x = a
    · -- nothing is in the relation to the first element
      subst heq
      have hnone : (x :: L).countP (fun z => R z x) = 0 := by
        rw [List.countP_eq_zero]
        intro z hz
        rcases List.mem_cons.mp hz with rfl | hz
        · simpa using hirrefl
        · simpa using hasymm x z (hfirst z hz)
      rw [hnone]
      cases n with
      | zero => simp
      | succ n => simp
    · have hmem : x ∈ L := List.mem_of_ne_of_mem heq hx
      have hcount : (a :: L).countP (fun z => R z x) = L.countP (fun z => R z x) + 1 :=
        List.countP_cons_of_pos (by simpa using hfirst x hmem)
      rw [hcount]
      cases n with
      | zero => simp
      | succ n =>
        rw [List.take_succ_cons, List.mem_cons, ih hrest hmem n]
        constructor
        · intro hor
          have hlt := hor.resolve_left heq
          omega
        · intro hlt
          exact Or.inr (by omega)

/-- The elements that are kept. -/
theorem mem_take_iff {index : α → Nat} (h : l.Pairwise fun a b => index a < index b) {x : α}
    (hx : x ∈ l) (n : Nat) :
    x ∈ (ranked score l).take n ↔ l.countP (fun z => Before score index z x) < n := by
  rw [mem_take_of_pairwise (fun _ _ => Before.asymm) (pairwise_before h) (mem_ranked.mpr hx),
    (perm_ranked score l).countP_eq]

/-- Two different elements are in the relation, one way or the other. -/
theorem rel_or_rel {R : α → α → Prop} {L : List α} (h : L.Pairwise R) {x y : α} (hx : x ∈ L) (hy : y ∈ L)
    (hne : x ≠ y) : R x y ∨ R y x := by
  have hor : L.Pairwise fun a b => R a b ∨ R b a := h.imp Or.inl
  have hsymm : Std.Symm fun a b => R a b ∨ R b a := ⟨fun _ _ => Or.symm⟩
  exact hor.forall hx hy hne

/-- Of the elements that are kept none comes after one that is not. -/
theorem mem_take_of_before {index : α → Nat} (h : l.Pairwise fun a b => index a < index b) {x y : α}
    (hy : y ∈ l) {n : Nat} (hx : x ∈ (ranked score l).take n) (hbefore : Before score index y x) :
    y ∈ (ranked score l).take n := by
  have hmem : y ∈ (ranked score l).take n ++ (ranked score l).drop n := by
    rw [List.take_append_drop]
    exact mem_ranked.mpr hy
  rcases List.mem_append.mp hmem with hkept | hcut
  · exact hkept
  · have hpairwise : (ranked score l).Pairwise (Before score index) := pairwise_before h
    rw [← List.take_append_drop n (ranked score l), List.pairwise_append] at hpairwise
    exact absurd hbefore (hpairwise.2.2 x hx y hcut).asymm

/-! ### What the old order does not matter for -/

theorem scores_eq_of_perm {l' : List α} (h : (l.map score).Perm (l'.map score)) :
    (ranked score l).map score = (ranked score l').map score := by
  have hsorted : ∀ m : List α, ((ranked score m).map score).Pairwise fun a b => b ≤ a := by
    intro m
    exact List.pairwise_map.mpr (pairwise_ranked score m)
  have hperm : ((ranked score l).map score).Perm ((ranked score l').map score) :=
    (((perm_ranked score l).map score).trans h).trans ((perm_ranked score l').map score).symm
  exact hperm.eq_of_pairwise (fun a b _ _ hab hba => le_antisymm hba hab) (hsorted l) (hsorted l')

/-- The last score that is kept and the first one that is cut differ, if there are both. -/
def CutApart (score : α → ℚ) (l : List α) (n : Nat) : Prop :=
  ∀ a b, (ranked score l)[n - 1]? = some a → (ranked score l)[n]? = some b → score a ≠ score b

/-- Then every score that is kept is higher than every score that is cut. -/
private theorem CutApart.lt {n : Nat} (h : CutApart score l n) {a b : α} (ha : a ∈ (ranked score l).take n)
    (hb : b ∈ (ranked score l).drop n) : score b < score a := by
  have hsorted := List.pairwise_iff_getElem.mp (pairwise_ranked score l)
  obtain ⟨i, hi, rfl⟩ := List.mem_take_iff_getElem.mp ha
  obtain ⟨j, hj, rfl⟩ := List.mem_drop_iff_getElem.mp hb
  have hn : n < (ranked score l).length := by omega
  have hle : ∀ s t (hs : s < (ranked score l).length) (ht : t < (ranked score l).length), s ≤ t →
      score (ranked score l)[t] ≤ score (ranked score l)[s] := by
    intro s t hs ht hst
    rcases Nat.lt_or_eq_of_le hst with hlt | rfl
    · exact hsorted s t hs ht hlt
    · exact le_refl _
  have hlast := hle i (n - 1) (by omega) (by omega) (by omega)
  have hfirst := hle n (n + j) hn (by omega) (Nat.le_add_right n j)
  have hcut := hle (n - 1) n (by omega) hn (by omega)
  have hne := h _ _ (List.getElem?_eq_getElem (by omega)) (List.getElem?_eq_getElem hn)
  exact lt_of_le_of_lt hfirst (lt_of_lt_of_le (lt_of_le_of_ne hcut hne.symm) hlast)

theorem mem_take_iff_countP {n : Nat} (h : CutApart score l n) {x : α} (hx : x ∈ l) :
    x ∈ (ranked score l).take n ↔ l.countP (fun z => score x < score z) < n := by
  have hsplit := List.take_append_drop n (ranked score l)
  rw [← (perm_ranked score l).countP_eq]
  constructor
  · intro hkept
    -- what is cut is not higher than `x`, and `x` is not higher than itself
    have hcut : ((ranked score l).drop n).countP (fun z => score x < score z) = 0 := by
      rw [List.countP_eq_zero]
      intro z hz
      simpa using le_of_lt (h.lt hkept hz)
    have hself : ((ranked score l).take n).countP (fun z => score x < score z) <
        ((ranked score l).take n).length := by
      refine lt_of_le_of_ne List.countP_le_length fun heq => ?_
      have hall := List.countP_eq_length.mp heq x hkept
      simp at hall
    have htotal := congrArg (List.countP fun z => score x < score z) hsplit
    rw [List.countP_append, hcut, Nat.add_zero] at htotal
    have hlen := List.length_take_le n (ranked score l)
    omega
  · intro hfew
    have hmem : x ∈ (ranked score l).take n ++ (ranked score l).drop n := by
      rw [hsplit]
      exact mem_ranked.mpr hx
    rcases List.mem_append.mp hmem with hkept | hcut
    · exact hkept
    · have hall : ((ranked score l).take n).countP (fun z => score x < score z) =
          ((ranked score l).take n).length := by
        rw [List.countP_eq_length]
        intro z hz
        simpa using h.lt hz hcut
      have htotal := congrArg (List.countP fun z => score x < score z) hsplit
      rw [List.countP_append, hall] at htotal
      have hlong : n < (ranked score l).length := by
        by_contra hn
        rw [List.drop_eq_nil_of_le (by omega)] at hcut
        cases hcut
      rw [List.length_take] at htotal
      omega

end Ranked
