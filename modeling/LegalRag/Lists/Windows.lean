import Mathlib.Data.List.Basic
import Mathlib.Order.MinMax

/-!
# Windows that move along an increasing list

Each window of a strictly increasing list is described by its least and its greatest element, and an empty
one by the greatest element of the last window before it that is not empty (`ranges`).  If the windows
move forward, so do these ranges (`ranges_forward`), and they consist of elements of the list
(`ranges_within`).
-/

namespace Windows

variable {α : Type} [LinearOrder α] {L : List α}

/-- The part of a list from one position up to another. -/
def window (L : List α) (w : Nat × Nat) : List α := (L.take w.2).drop w.1

omit [LinearOrder α] in
/-- A window of a part of a list, in the list. -/
theorem window_append (A M B : List α) (j : Nat) {i : Nat} (hi : i ≤ M.length) :
    window (A ++ M ++ B) (A.length + j, A.length + i) = window M (j, i) := by
  unfold window
  rw [List.append_assoc, List.take_length_add_append, List.drop_length_add_append,
    List.take_append_of_le_length hi]

/-- The least and the greatest element, or `last` twice. -/
def rangeOf (last : Option α) (M : List α) : Option α × Option α :=
  if M.max?.isSome then (M.min?, M.max?) else (last, last)

def ranges : Option α → List (List α) → List (Option α × Option α)
  | _, [] => []
  | last, M :: Ms => rangeOf last M :: ranges (rangeOf last M).2 Ms

/-- Both ends have moved forward, or stayed, and have not gone away. -/
def Follows (r r' : Option α × Option α) : Prop :=
  (∀ p ∈ r.1, ∃ q ∈ r'.1, p ≤ q) ∧ ∀ p ∈ r.2, ∃ q ∈ r'.2, p ≤ q

/-- No range, or one whose ends are in the list. -/
def RangeIn (L : List α) (r : Option α × Option α) : Prop :=
  r = (none, none) ∨ ∃ p q, r = (some p, some q) ∧ p ≤ q ∧ p ∈ L ∧ q ∈ L

private theorem rangeOf_nil (last : Option α) : rangeOf last [] = (last, last) := rfl

private theorem rangeOf_of_ne_nil (last : Option α) {M : List α} (h : M ≠ []) :
    ∃ p q, rangeOf last M = (some p, some q) ∧ p ∈ M ∧ q ∈ M ∧ ∀ x ∈ M, p ≤ x ∧ x ≤ q := by
  obtain ⟨p, hp⟩ := Option.ne_none_iff_exists'.mp (fun hn => h (List.min?_eq_none_iff.mp hn))
  obtain ⟨q, hq⟩ := Option.ne_none_iff_exists'.mp (fun hn => h (List.max?_eq_none_iff.mp hn))
  have hmin := List.min?_eq_some_iff.mp hp
  have hmax := List.max?_eq_some_iff.mp hq
  refine ⟨p, q, ?_, hmin.1, hmax.1, fun x hx => ⟨hmin.2 x hx, hmax.2 x hx⟩⟩
  rw [rangeOf, hp, hq]
  rfl

/-! ### The elements of a window -/

section Increasing

variable (hL : L.Pairwise (· < ·))

include hL

private theorem lt_of_take_drop {n : Nat} {x y : α} (hx : x ∈ L.take n) (hy : y ∈ L.drop n) : x < y := by
  rw [← List.take_append_drop n L] at hL
  exact (List.pairwise_append.mp hL).2.2 x hx y hy

private theorem mem_window_iff {w : Nat × Nat} {x : α} :
    x ∈ window L w ↔ x ∈ L.take w.2 ∧ x ∈ L.drop w.1 := by
  unfold window
  constructor
  · intro hx
    refine ⟨List.mem_of_mem_drop hx, ?_⟩
    rw [← List.take_append_drop w.2 L, List.drop_append]
    exact List.mem_append_left _ hx
  · rintro ⟨hbefore, hafter⟩
    rw [← List.take_append_drop w.2 L, List.drop_append, List.mem_append] at hafter
    refine hafter.resolve_right fun hx => ?_
    exact lt_irrefl x (lt_of_take_drop hL hbefore (List.mem_of_mem_drop hx))

/-- An element that a window does not reach comes after it. -/
private theorem lt_of_not_mem_take {n : Nat} {x y : α} (hx : x ∈ L.take n) (hy : y ∈ L)
    (hn : y ∉ L.take n) : x < y := by
  rw [← List.take_append_drop n L, List.mem_append] at hy
  exact lt_of_take_drop hL hx (hy.resolve_left hn)

/-- An element that a window has passed comes before it. -/
private theorem lt_of_not_mem_drop {n : Nat} {x y : α} (hy : y ∈ L.drop n) (hx : x ∈ L)
    (hn : x ∉ L.drop n) : x < y := by
  rw [← List.take_append_drop n L, List.mem_append] at hx
  exact lt_of_take_drop hL (hx.resolve_right hn) hy

end Increasing

/-! ### Later ranges -/

section Later

variable {w₀ : Nat × Nat} {ws : List (Nat × Nat)} {p : α}

/-- What is before the windows is before a window. -/
private theorem le_of_mem_window {f x : α} {w : Nat × Nat} (hL : L.Pairwise (· < ·)) (hw : w₀ ≤ w)
    (hf : ∀ y ∈ L.drop w₀.1, f ≤ y) (hx : x ∈ window L w) : f ≤ x :=
  hf x ((List.drop_sublist_drop_left L hw.1).subset ((mem_window_iff hL).mp hx).2)

/-- What the windows have reached is before the last element of a window. -/
private theorem le_last_of_window {t x : α} {w : Nat × Nat} (hL : L.Pairwise (· < ·)) (hw : w₀ ≤ w)
    (ht : t ∈ L.take w₀.2) (hx : x ∈ window L w) (hlast : ∀ y ∈ window L w, y ≤ x) : t ≤ x := by
  by_cases hin : t ∈ L.drop w.1
  · exact hlast t ((mem_window_iff hL).mpr ⟨(List.take_sublist_take_left hw.2).subset ht, hin⟩)
  · -- the window has passed `t`
    have hafter := ((mem_window_iff hL).mp hx).2
    exact (lt_of_not_mem_drop hL hafter (List.mem_of_mem_take ht) hin).le

/-- What is before the windows is before the ranges, and what the windows have reached is before the ends
of the ranges, if both are before `p`. -/
private theorem ranges_ge {f t : α} (hL : L.Pairwise (· < ·)) (hws : ∀ w ∈ ws, w₀ ≤ w)
    (hf : ∀ x ∈ L.drop w₀.1, f ≤ x) (ht : t ∈ L.take w₀.2) (hfp : f ≤ p) (htp : t ≤ p) :
    ∀ r ∈ ranges (some p) (ws.map (window L)), (∃ q ∈ r.1, f ≤ q) ∧ ∃ q ∈ r.2, t ≤ q := by
  induction ws generalizing p with
  | nil => simp [ranges]
  | cons w ws ih =>
    have hws' : ∀ w ∈ ws, w₀ ≤ w := fun v hv => hws v (List.mem_cons_of_mem _ hv)
    have hw := hws w List.mem_cons_self
    rw [List.map_cons, ranges, List.forall_mem_cons]
    by_cases hempty : window L w = []
    · rw [hempty, rangeOf_nil]
      exact ⟨⟨⟨p, rfl, hfp⟩, ⟨p, rfl, htp⟩⟩, ih hws' hfp htp⟩
    · obtain ⟨m, x, hrange, hm, hx, hbounds⟩ := rangeOf_of_ne_nil (some p) hempty
      have hfm : f ≤ m := le_of_mem_window hL hw hf hm
      have hfx : f ≤ x := le_of_mem_window hL hw hf hx
      have htx : t ≤ x := le_last_of_window hL hw ht hx fun y hy => (hbounds y hy).2
      rw [hrange]
      exact ⟨⟨⟨m, rfl, hfm⟩, ⟨x, rfl, htx⟩⟩, ih hws' hfx htx⟩

/-- A range whose beginning is before the windows, and whose end they have reached, is followed by theirs. -/
private theorem follows_ranges {f t : α} (hL : L.Pairwise (· < ·)) (hws : ∀ w ∈ ws, w₀ ≤ w)
    (hf : ∀ x ∈ L.drop w₀.1, f ≤ x) (ht : t ∈ L.take w₀.2) (hle : f ≤ t) :
    ∀ r ∈ ranges (some t) (ws.map (window L)), Follows (some f, some t) r := by
  intro r hr
  obtain ⟨hfirst, hlast⟩ := ranges_ge hL hws hf ht hle le_rfl r hr
  constructor
  · intro p hp
    obtain rfl : f = p := Option.some.inj hp
    exact hfirst
  · intro p hp
    obtain rfl : t = p := Option.some.inj hp
    exact hlast

end Later

/-- The ranges of windows that move forward move forward. -/
theorem ranges_forward (hL : L.Pairwise (· < ·)) {w₀ : Nat × Nat} {ws : List (Nat × Nat)}
    (hsorted : (w₀ :: ws).Pairwise (· ≤ ·)) {last : Option α} (hlast : ∀ p ∈ last, p ∈ L.take w₀.2) :
    (ranges last (ws.map (window L))).Pairwise Follows := by
  induction ws generalizing w₀ last with
  | nil => exact List.Pairwise.nil
  | cons w ws ih =>
    obtain ⟨hfirst, hsorted'⟩ := List.pairwise_cons.mp hsorted
    have hw : w₀ ≤ w := hfirst w List.mem_cons_self
    have hlater : ∀ v ∈ ws, w ≤ v := (List.pairwise_cons.mp hsorted').1
    rw [List.map_cons, ranges]
    by_cases hempty : window L w = []
    · rw [hempty, rangeOf_nil]
      have hlast' : ∀ p ∈ last, p ∈ L.take w.2 := fun p hp =>
        (List.take_sublist_take_left hw.2).subset (hlast p hp)
      refine List.Pairwise.cons ?_ (ih hsorted' hlast')
      cases last with
      | none => exact fun r _ => ⟨nofun, nofun⟩
      | some p =>
        have hp : p ∈ L.take w.2 := hlast' p rfl
        -- `p` is not in the window, so that the window has passed it
        have hnot : p ∉ L.drop w.1 := by
          intro hin
          have hmem := (mem_window_iff hL).mpr ⟨hp, hin⟩
          rw [hempty] at hmem
          cases hmem
        have hf : ∀ x ∈ L.drop w.1, p ≤ x := fun x hx =>
          (lt_of_not_mem_drop hL hx (List.mem_of_mem_take hp) hnot).le
        exact follows_ranges hL hlater hf hp le_rfl
    · obtain ⟨m, x, hrange, hm, hx, hbounds⟩ := rangeOf_of_ne_nil last hempty
      have hx' : x ∈ L.take w.2 := ((mem_window_iff hL).mp hx).1
      have hm' : m ∈ L.take w.2 := ((mem_window_iff hL).mp hm).1
      have hlast' : ∀ q ∈ some x, q ∈ L.take w.2 := by
        intro q hq
        obtain rfl : x = q := Option.some.inj hq
        exact hx'
      -- `m` is the least element of the window, and what comes after the window is greater
      have hf : ∀ y ∈ L.drop w.1, m ≤ y := by
        intro y hy
        by_cases hin : y ∈ L.take w.2
        · exact (hbounds y ((mem_window_iff hL).mpr ⟨hin, hy⟩)).1
        · exact (lt_of_not_mem_take hL hm' (List.mem_of_mem_drop hy) hin).le
      rw [hrange]
      exact List.Pairwise.cons (follows_ranges hL hlater hf hx' (hbounds m hm).2) (ih hsorted' hlast')

/-- The ends of a range are elements of the list. -/
theorem ranges_within {ws : List (Nat × Nat)} {last : Option α} (hlast : ∀ p ∈ last, p ∈ L) :
    ∀ r ∈ ranges last (ws.map (window L)), RangeIn L r := by
  induction ws generalizing last with
  | nil => simp [ranges]
  | cons w ws ih =>
    rw [List.map_cons, ranges, List.forall_mem_cons]
    by_cases hempty : window L w = []
    · rw [hempty, rangeOf_nil]
      refine ⟨?_, ih hlast⟩
      cases last with
      | none => exact Or.inl rfl
      | some p => exact Or.inr ⟨p, p, rfl, le_rfl, hlast p rfl, hlast p rfl⟩
    · obtain ⟨m, x, hrange, hm, hx, hbounds⟩ := rangeOf_of_ne_nil last hempty
      have hin : ∀ y ∈ window L w, y ∈ L := fun y hy => List.mem_of_mem_take (List.mem_of_mem_drop hy)
      have hlast' : ∀ q ∈ some x, q ∈ L := by
        intro q hq
        obtain rfl : x = q := Option.some.inj hq
        exact hin x hx
      rw [hrange]
      exact ⟨Or.inr ⟨m, x, rfl, (hbounds m hm).2, hin m hm, hin x hx⟩, ih hlast'⟩

end Windows
