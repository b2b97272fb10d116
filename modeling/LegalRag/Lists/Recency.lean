import Mathlib.Data.List.Dedup
import LegalRag.Redis.Lists

/-!
# The elements of a list by their last occurrence

`l.dedup` keeps the last occurrence of every element, so its end holds what occurred most recently.

* `dedup_concat`: an element that occurs again moves to the end;
* `rtake_moved`: of the `n + 1` most recent elements, the `n` others are the `n` most recent others;
* `mem_rtake_dedup_iff`: an element is among the `n` most recent ones exactly when it occurs and fewer
than `n` others occur after its last occurrence (`sinceLast`).
-/

namespace Recency

open Redis

variable {α : Type} [DecidableEq α]

/-- What comes after the last occurrence of `a`. -/
def sinceLast (a : α) (l : List α) : List α := l.rtakeWhile (· ≠ a)

private theorem sinceLast_append (a : α) (p : List α) {s : List α} (hs : a ∉ s) :
    sinceLast a (p ++ a :: s) = s := by
  have hall : ∀ b ∈ s.reverse, decide (b ≠ a) = true := by
    intro b hb
    have hmem : b ∈ s := List.mem_reverse.mp hb
    exact decide_eq_true fun he => hs (he ▸ hmem)
  rw [sinceLast, List.rtakeWhile, List.reverse_append, List.reverse_cons, List.append_assoc,
    List.takeWhile_append_of_pos hall]
  simp

/-- A list in which `a` occurs, cut at its last occurrence. -/
private theorem exists_last {a : α} {l : List α} (h : a ∈ l) : ∃ p s, l = p ++ a :: s ∧ a ∉ s := by
  induction l with
  | nil => cases h
  | cons b l ih =>
    by_cases hl : a ∈ l
    · obtain ⟨p, s, rfl, hs⟩ := ih hl
      exact ⟨b :: p, s, rfl, hs⟩
    · obtain rfl : a = b := by
        rcases List.mem_cons.mp h with he | he
        · exact he
        · exact absurd he hl
      exact ⟨[], l, rfl, hl⟩

/-- What occurs after the last occurrence of `a` ends the elements by their last occurrence. -/
private theorem dedup_at_last (a : α) (p : List α) {s : List α} (hs : a ∉ s) :
    ∃ q, (p ++ a :: s).dedup = q ++ a :: s.dedup := by
  obtain ⟨q, hq⟩ := List.suffix_union_right p (a :: s).dedup
  refine ⟨q, ?_⟩
  rw [List.dedup_append, ← hq, List.dedup_cons_of_notMem hs]

theorem dedup_concat (l : List α) (a : α) : (l ++ [a]).dedup = l.dedup.filter (· ≠ a) ++ [a] := by
  induction l with
  | nil => simp
  | cons b l ih =>
    rw [List.cons_append]
    by_cases hb : b ∈ l
    · rw [List.dedup_cons_of_mem (List.mem_append_left _ hb), List.dedup_cons_of_mem hb, ih]
    · by_cases hba : b = a
      · subst hba
        rw [List.dedup_cons_of_mem (by simp), List.dedup_cons_of_notMem hb, ih]
        simp
      · rw [List.dedup_cons_of_notMem (by simp [hb, hba]), List.dedup_cons_of_notMem hb, ih]
        simp [hba]

private theorem take_moved (n : Nat) (a : α) {l : List α} (h : l.Nodup) :
    ((l.take (n + 1)).filter (· ≠ a)).take n = (l.filter (· ≠ a)).take n := by
  induction l generalizing n with
  | nil => simp
  | cons b l ih =>
    obtain ⟨hb, hl⟩ := List.nodup_cons.mp h
    by_cases hba : b = a
    · -- the others are all of `l`
      have hothers : ∀ m : List α, (∀ c ∈ m, c ∈ l) → m.filter (· ≠ a) = m := by
        intro m hm
        refine List.filter_eq_self.mpr fun c hc => decide_eq_true ?_
        rintro rfl
        exact hb (hba ▸ hm _ hc)
      have hdrop : ∀ m : List α, (b :: m).filter (· ≠ a) = m.filter (· ≠ a) := by
        intro m
        simp [hba]
      rw [List.take_succ_cons, hdrop, hdrop, hothers _ fun c hc => List.mem_of_mem_take hc,
        hothers _ fun c hc => hc, List.take_take, Nat.min_self]
    · cases n with
      | zero => simp
      | succ n =>
        have hkeep : ∀ m : List α, (b :: m).filter (· ≠ a) = b :: m.filter (· ≠ a) := by
          intro m
          simp [hba]
        rw [List.take_succ_cons, hkeep, hkeep, List.take_succ_cons, List.take_succ_cons, ih n hl]

theorem rtake_moved (n : Nat) (a : α) {l : List α} (h : l.Nodup) :
    ((l.rtake (n + 1)).filter (· ≠ a)).rtake n = (l.filter (· ≠ a)).rtake n := by
  have hrev := take_moved n a (List.nodup_reverse.mpr h)
  simp only [List.rtake_eq_reverse_take_reverse]
  rw [← List.filter_reverse, List.reverse_reverse, hrev, List.filter_reverse]

omit [DecidableEq α] in
private theorem mem_rtake_at (n : Nat) {a : α} {q s : List α} (h : (q ++ a :: s).Nodup) :
    a ∈ (q ++ a :: s).rtake n ↔ s.length < n := by
  have hs : a ∉ s := (List.nodup_cons.mp (List.nodup_append.mp h).2.1).1
  have hlen : (q ++ a :: s).length = q.length + (s.length + 1) := by simp
  rw [List.rtake, hlen]
  constructor
  · intro hmem
    by_contra hn
    have hdrop : q.length + (s.length + 1) - n = (q ++ [a]).length + (s.length - n) := by
      simp only [List.length_append, List.length_singleton]
      omega
    rw [hdrop, List.append_cons q a s, List.drop_length_add_append] at hmem
    exact hs (List.mem_of_mem_drop hmem)
  · intro hn
    rw [List.drop_append_of_le_length (by omega)]
    simp

theorem mem_rtake_dedup_iff (n : Nat) (a : α) (l : List α) :
    a ∈ l.dedup.rtake n ↔ a ∈ l ∧ (sinceLast a l).dedup.length < n := by
  by_cases ha : a ∈ l
  · obtain ⟨p, s, rfl, hs⟩ := exists_last ha
    obtain ⟨q, hq⟩ := dedup_at_last a p hs
    have hnodup : (q ++ a :: s.dedup).Nodup := hq ▸ List.nodup_dedup _
    rw [hq, mem_rtake_at n hnodup, sinceLast_append a p hs]
    simp
  · have hnot : a ∉ l.dedup.rtake n := fun h => ha (List.mem_dedup.mp (List.mem_of_mem_drop h))
    exact iff_of_false hnot fun h => ha h.1

end Recency
