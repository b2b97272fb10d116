import Mathlib.Data.List.DropRight

/-!
# Strings of glyphs

Functions of Python's `str` on lists.  A glyph is anything that shows a character (`ch`): a character
itself, or a character that knows where it comes from.  As the functions look at the character only, they
commute with forgetting the rest (`map_strip`, `map_firstLine`, `map_afterLine`).
-/

namespace PyStr

/-- `str.isspace`, the class `\s` of regular expressions. -/
def isSpace (c : Char) : Bool :=
  let n := c.toNat
  (0x9 ≤ n && n ≤ 0xd) || (0x1c ≤ n && n ≤ 0x20) || n == 0x85 || n == 0xa0 || n == 0x1680 ||
    (0x2000 ≤ n && n ≤ 0x200a) || n == 0x2028 || n == 0x2029 || n == 0x202f || n == 0x205f || n == 0x3000

/-- The zeros of the decimal digits of Unicode; the nine other digits follow each. -/
def digitZeros : List Nat :=
  [0x30, 0x660, 0x6f0, 0x7c0, 0x966, 0x9e6, 0xa66, 0xae6, 0xb66, 0xbe6, 0xc66, 0xce6, 0xd66, 0xde6, 0xe50,
    0xed0, 0xf20,
    0x1040, 0x1090, 0x17e0, 0x1810, 0x1946, 0x19d0, 0x1a80, 0x1a90, 0x1b50, 0x1bb0, 0x1c40, 0x1c50,
      0xa620, 0xa8d0,
    0xa900, 0xa9d0, 0xa9f0, 0xaa50, 0xabf0, 0xff10, 0x104a0, 0x10d30, 0x11066, 0x110f0, 0x11136,
      0x111d0, 0x112f0,
    0x11450, 0x114d0, 0x11650, 0x116c0, 0x11730, 0x118e0, 0x11950, 0x11c50, 0x11d50, 0x11da0, 0x11f50,
      0x16a60, 0x16ac0,
    0x16b50, 0x1d7ce, 0x1d7d8, 0x1d7e2, 0x1d7ec, 0x1d7f6, 0x1e140, 0x1e2f0, 0x1e4f0, 0x1e950, 0x1fbf0]

/-- The value of a decimal digit. -/
def digit? (c : Char) : Option Nat :=
  (digitZeros.find? fun z => z ≤ c.toNat ∧ c.toNat < z + 10).map fun z => c.toNat - z

/-- The class `\d` of regular expressions. -/
def isDigit (c : Char) : Bool := (digit? c).isSome

/-- `int(s)` of a string of digits. -/
def int (s : List Char) : Nat := s.foldl (fun n c => 10 * n + (digit? c).getD 0) 0

variable {γ δ : Type} (ch : γ → Char)

def lstrip (s : List γ) : List γ := s.dropWhile fun g => isSpace (ch g)

def rstrip (s : List γ) : List γ := s.rdropWhile fun g => isSpace (ch g)

/-- `s.strip()`. -/
def strip (s : List γ) : List γ := rstrip ch (lstrip ch s)

/-- The first component of `s.partition("\n")`. -/
def firstLine (s : List γ) : List γ := s.takeWhile fun g => ch g ≠ '\n'

/-- The last component of `s.partition("\n")`. -/
def afterLine (s : List γ) : List γ := (s.dropWhile fun g => ch g ≠ '\n').drop 1

/-- `sep.join(parts)`. -/
def join (sep : List γ) : List (List γ) → List γ
  | [] => []
  | [p] => p
  | p :: q :: ps => p ++ sep ++ join sep (q :: ps)

variable {ch} {ch' : δ → Char} {e : γ → δ}

private theorem map_lstrip (h : ∀ g, ch' (e g) = ch g) (s : List γ) :
    lstrip ch' (s.map e) = (lstrip ch s).map e := by
  have hp : (fun g => isSpace (ch' g)) ∘ e = fun g => isSpace (ch g) := funext fun g => by simp [h]
  rw [lstrip, lstrip, List.dropWhile_map, hp]

theorem map_strip (h : ∀ g, ch' (e g) = ch g) (s : List γ) : strip ch' (s.map e) = (strip ch s).map e := by
  have hp : (fun g => isSpace (ch' g)) ∘ e = fun g => isSpace (ch g) := funext fun g => by simp [h]
  rw [strip, strip, map_lstrip h, rstrip, rstrip, List.rdropWhile, List.rdropWhile, ← List.map_reverse,
    List.dropWhile_map, hp, List.map_reverse]

theorem map_firstLine (h : ∀ g, ch' (e g) = ch g) (s : List γ) :
    firstLine ch' (s.map e) = (firstLine ch s).map e := by
  have hp : (fun g => decide (ch' g ≠ '\n')) ∘ e = fun g => decide (ch g ≠ '\n') :=
    funext fun g => by simp [h]
  rw [firstLine, firstLine, List.takeWhile_map, hp]

theorem map_afterLine (h : ∀ g, ch' (e g) = ch g) (s : List γ) :
    afterLine ch' (s.map e) = (afterLine ch s).map e := by
  have hp : (fun g => decide (ch' g ≠ '\n')) ∘ e = fun g => decide (ch g ≠ '\n') :=
    funext fun g => by simp [h]
  rw [afterLine, afterLine, List.dropWhile_map, hp, List.map_drop]

theorem map_join (e : γ → δ) (sep : List γ) (ps : List (List γ)) :
    (join sep ps).map e = join (sep.map e) (ps.map (List.map e)) := by
  induction ps with
  | nil => rfl
  | cons p ps ih =>
    cases ps with
    | nil => rfl
    | cons q ps =>
      rw [join, List.map_append, List.map_append, ih]
      rfl

theorem strip_part (ch : γ → Char) (s : List γ) : strip ch s <:+: s :=
  ((List.rdropWhile_prefix _ _).isInfix).trans (List.dropWhile_suffix _).isInfix

/-- What `strip` takes away. -/
theorem strip_split (ch : γ → Char) (s : List γ) :
    ∃ a b, s = a ++ strip ch s ++ b ∧ (∀ g ∈ a, isSpace (ch g)) ∧ ∀ g ∈ b, isSpace (ch g) := by
  obtain ⟨b, hb, hspaces⟩ : ∃ b, lstrip ch s = strip ch s ++ b ∧ ∀ g ∈ b, isSpace (ch g) := by
    refine ⟨((lstrip ch s).reverse.takeWhile fun g => isSpace (ch g)).reverse, ?_, ?_⟩
    · rw [strip, rstrip, List.rdropWhile, ← List.reverse_append, List.takeWhile_append_dropWhile,
        List.reverse_reverse]
    · intro g hg
      exact List.mem_takeWhile_imp (p := fun g => isSpace (ch g)) (List.mem_reverse.mp hg)
  refine ⟨s.takeWhile fun g => isSpace (ch g), b, ?_, fun g hg => ?_, hspaces⟩
  · rw [List.append_assoc, ← hb, lstrip, List.takeWhile_append_dropWhile]
  · exact List.mem_takeWhile_imp (p := fun g => isSpace (ch g)) hg

/-- Spaces around a text do not matter to `strip`. -/
theorem strip_pad {a s b : List γ} (ha : ∀ g ∈ a, isSpace (ch g)) (hb : ∀ g ∈ b, isSpace (ch g)) :
    strip ch (a ++ s ++ b) = strip ch s := by
  have hright : ∀ l : List γ, rstrip ch (l ++ b) = rstrip ch l := by
    intro l
    have hb' : ∀ g ∈ b.reverse, isSpace (ch g) := fun g hg => hb g (List.mem_reverse.mp hg)
    rw [rstrip, rstrip, List.rdropWhile, List.rdropWhile, List.reverse_append,
      List.dropWhile_append_of_pos hb']
  have hleft : lstrip ch (a ++ s ++ b) =
      if (lstrip ch s).isEmpty then lstrip ch b else lstrip ch s ++ b := by
    rw [List.append_assoc, lstrip, List.dropWhile_append_of_pos ha, List.dropWhile_append]
    rfl
  rw [strip, hleft, strip]
  by_cases hs : (lstrip ch s).isEmpty
  · rw [if_pos hs, List.isEmpty_iff.mp hs, lstrip, List.dropWhile_eq_nil_iff.mpr hb]
  · rw [if_neg hs, hright]

@[simp] theorem strip_strip (ch : γ → Char) (s : List γ) : strip ch (strip ch s) = strip ch s := by
  obtain ⟨a, b, hs, ha, hb⟩ := strip_split ch s
  conv_rhs => rw [hs, strip_pad ha hb]

end PyStr
