import LegalRag.Ingestion.Markers

/-!
# Pieces of a text with markers

A piece of a text may begin or end within a marker; what it holds of such a marker are plain characters,
in which nothing is matched (`unmatched_takeChars`, `unmatched_dropChars`).  So the markers of a piece are
those that lie in it as a whole, and they are a window of the markers of the text (`markers_piece`).
-/

namespace LegalRag

open PyStr Regex

/-- The first `n` characters of a text. -/
def takeChars : Nat → List Tok → List Tok
  | _, [] => []
  | 0, .glyph _ :: _ => []
  | n + 1, .glyph g :: X => .glyph g :: takeChars n X
  | n, .marker q :: X =>
    if (markerText q).length ≤ n then .marker q :: takeChars (n - (markerText q).length) X
    else charToks none ((markerText q).take n)

/-- The rest of the text after `n` characters. -/
def dropChars : Nat → List Tok → List Tok
  | _, [] => []
  | 0, t :: X => t :: X
  | n + 1, .glyph _ :: X => dropChars n X
  | n + 1, .marker q :: X =>
    charToks none ((markerText q).drop (n + 1)) ++ dropChars (n + 1 - (markerText q).length) X

/-- How many markers end within the first `n` characters. -/
def endsWithin : Nat → List Tok → Nat
  | _, [] => 0
  | 0, .glyph _ :: _ => 0
  | n + 1, .glyph _ :: X => endsWithin n X
  | n, .marker q :: X =>
    if (markerText q).length ≤ n then endsWithin (n - (markerText q).length) X + 1 else 0

/-- How many markers begin within the first `n` characters. -/
def beginsWithin : Nat → List Tok → Nat
  | _, [] => 0
  | 0, _ :: _ => 0
  | n + 1, .glyph _ :: X => beginsWithin n X
  | n + 1, .marker q :: X => beginsWithin (n + 1 - (markerText q).length) X + 1

@[simp] theorem dropChars_zero (X : List Tok) : dropChars 0 X = X := by cases X <;> rfl

@[simp] theorem beginsWithin_zero (X : List Tok) : beginsWithin 0 X = 0 := by cases X <;> rfl

theorem chars_takeChars (n : Nat) (X : List Tok) : chars (takeChars n X) = (chars X).take n := by
  induction X generalizing n with
  | nil => simp [takeChars]
  | cons t X ih =>
    cases t with
    | glyph g =>
      cases n with
      | zero => rw [takeChars, List.take_zero, chars_nil]
      | succ n => rw [takeChars, chars_glyph, chars_glyph, ih, List.take_succ_cons]
    | marker q =>
      rw [takeChars, chars_marker, List.take_append]
      by_cases hn : (markerText q).length ≤ n
      · rw [if_pos hn, chars_marker, ih, List.take_of_length_le hn]
      · have hrest : n - (markerText q).length = 0 := by omega
        rw [if_neg hn, chars_charToks, hrest, List.take_zero, List.append_nil]

theorem chars_dropChars (n : Nat) (X : List Tok) : chars (dropChars n X) = (chars X).drop n := by
  induction X generalizing n with
  | nil => simp [dropChars]
  | cons t X ih =>
    cases n with
    | zero => rw [dropChars_zero, List.drop_zero]
    | succ n =>
      cases t with
      | glyph g => rw [dropChars, chars_glyph, ih, List.drop_succ_cons]
      | marker q => rw [dropChars, chars_append, chars_charToks, ih, chars_marker, List.drop_append]

/-! ### The markers of a piece -/

private theorem markers_dropChars_of_nil {X : List Tok} (h : markers X = []) (n : Nat) :
    markers (dropChars n X) = [] := by
  induction X generalizing n with
  | nil => rfl
  | cons t X ih =>
    cases t with
    | marker q => cases h
    | glyph g =>
      cases n with
      | zero => exact h
      | succ n => exact ih h n

theorem markers_piece (a b : Nat) (X : List Tok) :
    markers (dropChars a (takeChars b X)) = ((markers X).take (endsWithin b X)).drop (beginsWithin a X) := by
  induction X generalizing a b with
  | nil => simp [takeChars, dropChars]
  | cons t X ih =>
    cases t with
    | glyph g =>
      cases b with
      | zero => simp [takeChars, dropChars, endsWithin]
      | succ b =>
        rw [takeChars, endsWithin, markers_glyph]
        cases a with
        | zero =>
          have hzero := ih 0 b
          rw [dropChars_zero] at hzero
          rw [dropChars_zero, beginsWithin_zero, markers_glyph, hzero, beginsWithin_zero]
        | succ a => exact ih a b
    | marker q =>
      rw [takeChars, endsWithin, markers_marker]
      by_cases hb : (markerText q).length ≤ b
      · rw [if_pos hb, if_pos hb, List.take_succ_cons]
        cases a with
        | zero =>
          have hzero := ih 0 (b - (markerText q).length)
          rw [dropChars_zero, beginsWithin_zero, List.drop_zero] at hzero
          rw [dropChars_zero, beginsWithin_zero, List.drop_zero, markers_marker, hzero]
        | succ a =>
          rw [dropChars, beginsWithin, markers_append, markers_charToks, List.nil_append, ih,
            List.drop_succ_cons]
      · -- the piece ends within the marker, of which only characters are left
        rw [if_neg hb, if_neg hb, markers_dropChars_of_nil (markers_charToks _ _), List.take_zero,
          List.drop_nil]

/-! ### How many markers -/

theorem endsWithin_le (n : Nat) (X : List Tok) : endsWithin n X ≤ (markers X).length := by
  induction X generalizing n with
  | nil => exact Nat.zero_le _
  | cons t X ih =>
    cases t with
    | glyph g =>
      cases n with
      | zero => exact Nat.zero_le _
      | succ n => exact ih n
    | marker q =>
      rw [endsWithin]
      split
      · exact Nat.succ_le_succ (ih _)
      · exact Nat.zero_le _

theorem beginsWithin_le (n : Nat) (X : List Tok) : beginsWithin n X ≤ (markers X).length := by
  induction X generalizing n with
  | nil => exact Nat.zero_le _
  | cons t X ih =>
    cases n with
    | zero => exact Nat.zero_le _
    | succ n =>
      cases t with
      | glyph g => exact ih n
      | marker q => exact Nat.succ_le_succ (ih _)

theorem endsWithin_mono {m n : Nat} (h : m ≤ n) (X : List Tok) : endsWithin m X ≤ endsWithin n X := by
  induction X generalizing m n with
  | nil => exact Nat.le_refl _
  | cons t X ih =>
    cases t with
    | glyph g =>
      cases m with
      | zero => exact Nat.zero_le _
      | succ m =>
        obtain ⟨n, rfl⟩ : ∃ k, n = k + 1 := ⟨n - 1, by omega⟩
        exact ih (by omega)
    | marker q =>
      rw [endsWithin, endsWithin]
      by_cases hm : (markerText q).length ≤ m
      · rw [if_pos hm, if_pos (Nat.le_trans hm h)]
        exact Nat.succ_le_succ (ih (by omega))
      · rw [if_neg hm]
        exact Nat.zero_le _

theorem beginsWithin_mono {m n : Nat} (h : m ≤ n) (X : List Tok) : beginsWithin m X ≤ beginsWithin n X := by
  induction X generalizing m n with
  | nil => exact Nat.le_refl _
  | cons t X ih =>
    cases m with
    | zero =>
      rw [beginsWithin_zero]
      exact Nat.zero_le _
    | succ m =>
      obtain ⟨n, rfl⟩ : ∃ k, n = k + 1 := ⟨n - 1, by omega⟩
      cases t with
      | glyph g => exact ih (by omega)
      | marker q => exact Nat.succ_le_succ (ih (by omega))

private theorem endsWithin_zero (X : List Tok) : endsWithin 0 X = 0 := by
  rcases X with _ | ⟨t | q, X⟩
  · rfl
  · rfl
  · exact if_neg (by simp [markerText])

/-- The markers of a beginning of the text. -/
theorem endsWithin_append (T X : List Tok) : endsWithin (chars T).length (T ++ X) = (markers T).length := by
  induction T with
  | nil => exact endsWithin_zero X
  | cons t T ih =>
    cases t with
    | glyph g => exact ih
    | marker q =>
      have hlen : (chars (.marker q :: T)).length = (markerText q).length + (chars T).length := by
        rw [chars_marker, List.length_append]
      rw [hlen, List.cons_append, endsWithin, if_pos (Nat.le_add_right _ _), Nat.add_sub_cancel_left, ih]
      rfl

/-! ### Lines -/

private theorem lines_of_head {prev prev' : Option Char} {X : List Tok} (hl : Lines prev X)
    (hX : (prev' = none ∨ prev' = some '\n') ∨ ∀ t ∈ X.head?, t.ch = '\n') : Lines prev' X := by
  cases X with
  | nil => trivial
  | cons t X =>
    cases t with
    | glyph g => exact hl
    | marker q =>
      refine ⟨hX.resolve_right fun hhead => ?_, hl.2⟩
      exact absurd (show '#' = '\n' from hhead _ rfl) (by decide)

private theorem lines_charToks {prev : Option Char} {page : Option Nat} {t : List Char} {X : List Tok}
    (h : ∀ prev, Lines prev X) : Lines prev (charToks page t ++ X) := by
  induction t generalizing prev with
  | nil => exact h prev
  | cons c t ih => exact ih

/-- A beginning of a text ends, or goes on with the same character as the text. -/
private theorem head_takeChars {n : Nat} {X : List Tok} (h : ∀ t ∈ X.head?, t.ch = '\n') :
    ∀ t ∈ (takeChars n X).head?, t.ch = '\n' := by
  intro t ht
  rcases X with _ | ⟨g | q, X⟩
  · cases ht
  · cases n with
    | zero => cases ht
    | succ n => exact h t ht
  · exact absurd (show '#' = '\n' from h _ rfl) (by decide)

theorem lines_takeChars {prev : Option Char} {X : List Tok} (h : Lines prev X) (n : Nat) :
    Lines prev (takeChars n X) := by
  induction X generalizing prev n with
  | nil => trivial
  | cons t X ih =>
    cases t with
    | glyph g =>
      cases n with
      | zero => trivial
      | succ n => exact ih h n
    | marker q =>
      rw [takeChars]
      by_cases hn : (markerText q).length ≤ n
      · rw [if_pos hn]
        exact ⟨h.1, head_takeChars h.2.1, ih h.2.2 _⟩
      · rw [if_neg hn]
        exact lines_of_markers (markers_charToks _ _)

theorem lines_dropChars {prev prev' : Option Char} {X : List Tok} (h : Lines prev X)
    (hprev : prev' = none ∨ prev' = some '\n') (n : Nat) : Lines prev' (dropChars n X) := by
  induction X generalizing prev n with
  | nil => trivial
  | cons t X ih =>
    cases n with
    | zero =>
      rw [dropChars_zero]
      exact lines_of_head h (Or.inl hprev)
    | succ n =>
      cases t with
      | glyph g => exact ih h n
      | marker q =>
        rw [dropChars]
        by_cases hn : (markerText q).length ≤ n + 1
        · rw [List.drop_eq_nil_of_le hn]
          exact ih h.2.2 _
        · -- the text goes on after the marker with a newline
          have hzero : n + 1 - (markerText q).length = 0 := by omega
          rw [hzero, dropChars_zero]
          exact lines_charToks fun _ => lines_of_head h.2.2 (Or.inr h.2.1)

/-! ### No match in a part of a marker -/

private theorem unmatched_charToks {page : Option Nat} {t : List Char} {X : List Tok}
    (h : ∀ a b, t = a ++ b → b ≠ [] → ¬ PageLine (b ++ chars X)) (hX : Unmatched X) :
    Unmatched (charToks page t ++ X) := by
  induction t with
  | nil => exact hX
  | cons c t ih =>
    refine ⟨?_, ih fun a b hab => h (c :: a) b (by rw [hab, List.cons_append])⟩
    have hfirst := h [] (c :: t) rfl (List.cons_ne_nil _ _)
    have hchars : chars (.glyph ⟨c, page⟩ :: (charToks page t ++ X)) = c :: t ++ chars X := by
      rw [chars_glyph, chars_append, chars_charToks, List.cons_append]
    exact hchars ▸ hfirst

/-- The bracket is the last character of a marker only. -/
private theorem bracket_not_mem_take {q n : Nat} (h : n < (markerText q).length) :
    ']' ∉ (markerText q).take n := by
  have hdigit : ∀ d < 10, d.digitChar ≠ ']' := by decide
  have hsplit : markerText q = (['#', '#', ' ', '[', 'P', 'a', 'g', 'e', ' '] ++ Nat.toDigits 10 q) ++
      [']'] := by
    simp [markerText]
  rw [hsplit, List.length_append, List.length_singleton] at h
  rw [hsplit, List.take_append_of_le_length (Nat.le_of_lt_succ h)]
  intro hmem
  rcases List.mem_append.mp (List.mem_of_mem_take hmem) with hm | hm
  · exact absurd hm (by decide)
  · obtain ⟨d, hd, hc⟩ := mem_toDigits hm
    exact hdigit d hd hc.symm

/-- A marker without its first characters does not begin as a marker does. -/
private theorem not_marker_suffix {q : Nat} {a b r y : List Char} (h : markerText q = a ++ b) (ha : a ≠ [])
    (hb : b ≠ []) : b ++ y ≠ '#' :: '#' :: r := by
  have hdigit : ∀ d < 10, d.digitChar ≠ '#' := by decide
  obtain ⟨w, hw, hno⟩ : ∃ w, markerText q = '#' :: '#' :: ' ' :: w ∧ '#' ∉ w := by
    refine ⟨['[', 'P', 'a', 'g', 'e', ' '] ++ (Nat.toDigits 10 q ++ [']']), rfl, ?_⟩
    simp only [List.mem_append, not_or]
    refine ⟨by decide, fun hm => ?_, by decide⟩
    obtain ⟨d, hd, hc⟩ := mem_toDigits hm
    exact hdigit d hd hc.symm
  rw [hw] at h
  intro hmatch
  rcases a with _ | ⟨c, _ | ⟨c', a⟩⟩
  · exact absurd rfl ha
  · obtain ⟨-, rfl⟩ := List.cons.inj h
    simp at hmatch
  · -- no `#` is left
    have hrest : ' ' :: w = a ++ b := (List.cons.inj (List.cons.inj h).2).2
    obtain ⟨d, b, rfl⟩ := List.exists_cons_of_ne_nil hb
    obtain ⟨rfl, -⟩ := List.cons.inj hmatch
    have hmem : '#' ∈ ' ' :: w := by
      rw [hrest]
      simp
    rcases List.mem_cons.mp hmem with hspace | hmem
    · exact absurd hspace (by decide)
    · exact hno hmem

theorem unmatched_takeChars {X : List Tok} (h : NoPage X) (n : Nat) : Unmatched (takeChars n X) := by
  induction X generalizing n with
  | nil => trivial
  | cons t X ih =>
    have hX : NoPage X := fun hp => h (hp.trans (List.suffix_cons _ _).isInfix)
    cases t with
    | glyph g =>
      cases n with
      | zero => trivial
      | succ n =>
        refine ⟨not_pageLine_glyph h ?_, ih hX n⟩
        have hchars := chars_takeChars (n + 1) (.glyph g :: X)
        rw [takeChars] at hchars
        rw [hchars]
        exact List.take_prefix _ _
    | marker q =>
      rw [takeChars]
      by_cases hn : (markerText q).length ≤ n
      · rw [if_pos hn]
        exact ih hX _
      · rw [if_neg hn, ← List.append_nil (charToks none _)]
        refine unmatched_charToks ?_ trivial
        rintro a b hab - ⟨x, y, d, e, rest, hs, -⟩
        refine bracket_not_mem_take (Nat.lt_of_not_le hn) ?_
        rw [hab]
        rw [chars_nil, List.append_nil] at hs
        rw [hs]
        simp

theorem unmatched_dropChars {X : List Tok} (h : Unmatched X) (n : Nat) : Unmatched (dropChars n X) := by
  induction X generalizing n with
  | nil => trivial
  | cons t X ih =>
    cases n with
    | zero => exact h
    | succ n =>
      cases t with
      | glyph g => exact ih h.2 n
      | marker q =>
        rw [dropChars]
        refine unmatched_charToks ?_ (ih h _)
        rintro a b hab hb ⟨x, y, d, e, rest, hs, -⟩
        have hsuffix : markerText q = ((markerText q).take (n + 1) ++ a) ++ b := by
          rw [List.append_assoc, ← hab, List.take_append_drop]
        refine not_marker_suffix hsuffix ?_ hb hs
        simp [markerText]

end LegalRag
