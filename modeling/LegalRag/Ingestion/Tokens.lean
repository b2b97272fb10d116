import LegalRag.Ingestion.Chunker
import LegalRag.Text.Matches

/-!
# Texts with page markers

The markdown of a PDF is read in two ways: as glyphs, characters that know the page they come from, and as
tokens, in which a marker `## [Page N]` is one item.  The string functions do the same on both
(`flat_strip`, `flat_firstLine`, `flat_afterLine`), as a marker contains neither a newline nor a space at
its ends; and a text of tokens is cut between tokens wherever a line begins or ends (`exists_split`).
-/

namespace LegalRag

open PyStr Regex

/-- A character of the markdown, and the page whose text it belongs to. -/
structure Glyph where
  ch : Char
  page : Option Nat
  deriving DecidableEq, Repr

/-- A character that belongs to no page. -/
def Glyph.lit (c : Char) : Glyph := ⟨c, none⟩

inductive Tok where
  | glyph (g : Glyph)
  | marker (page : Nat)

/-- The text of a marker. -/
def markerText (page : Nat) : List Char :=
  ['#', '#', ' '] ++ (['[', 'P', 'a', 'g', 'e', ' '] ++ (Nat.toDigits 10 page ++ [']']))

namespace Tok

/-- The glyphs of a token. -/
def flat : Tok → List Glyph
  | glyph g => [g]
  | marker page => (markerText page).map Glyph.lit

/-- The first character of a token. -/
def ch : Tok → Char
  | glyph g => g.ch
  | marker _ => '#'

/-- A newline that belongs to no page. -/
def newline : Tok := glyph (Glyph.lit '\n')

end Tok

/-- The glyphs of a text. -/
def flat (X : List Tok) : List Glyph := X.flatMap Tok.flat

/-- The characters of a text. -/
def chars (X : List Tok) : List Char := (flat X).map Glyph.ch

/-- The pages of the markers in a text. -/
def markers (X : List Tok) : List Nat :=
  X.filterMap fun
    | .marker page => some page
    | .glyph _ => none

section Basic

variable {X Y : List Tok} {g : Glyph} {q : Nat}

@[simp] theorem flat_nil : flat [] = [] := rfl

@[simp] theorem flat_append : flat (X ++ Y) = flat X ++ flat Y := List.flatMap_append

@[simp] theorem flat_glyph : flat (.glyph g :: X) = g :: flat X := rfl

@[simp] theorem flat_marker : flat (.marker q :: X) = (markerText q).map Glyph.lit ++ flat X := rfl

@[simp] theorem chars_nil : chars [] = [] := rfl

@[simp] theorem chars_append : chars (X ++ Y) = chars X ++ chars Y := by simp [chars]

@[simp] theorem chars_glyph : chars (.glyph g :: X) = g.ch :: chars X := rfl

@[simp] theorem chars_marker : chars (.marker q :: X) = markerText q ++ chars X := by
  have hch : (fun c => (Glyph.lit c).ch) = id := rfl
  simp [chars, Function.comp_def, hch]

@[simp] theorem markers_nil : markers [] = [] := rfl

@[simp] theorem markers_append : markers (X ++ Y) = markers X ++ markers Y := List.filterMap_append

@[simp] theorem markers_glyph : markers (.glyph g :: X) = markers X := rfl

@[simp] theorem markers_marker : markers (.marker q :: X) = q :: markers X := rfl

end Basic

theorem chars_of_no_markers {X : List Tok} (h : markers X = []) : chars X = X.map Tok.ch := by
  induction X with
  | nil => rfl
  | cons t X ih =>
    cases t with
    | glyph g => exact congrArg (g.ch :: ·) (ih h)
    | marker q => cases h

/-- Characters of a page, or of none. -/
def charToks (page : Option Nat) (t : List Char) : List Tok := t.map fun c => .glyph ⟨c, page⟩

@[simp] theorem charToks_nil (page : Option Nat) : charToks page [] = [] := rfl

@[simp] theorem charToks_cons (page : Option Nat) (c : Char) (t : List Char) :
    charToks page (c :: t) = .glyph ⟨c, page⟩ :: charToks page t := rfl

@[simp] theorem chars_charToks (page : Option Nat) (t : List Char) : chars (charToks page t) = t := by
  induction t with
  | nil => rfl
  | cons c t ih => rw [charToks_cons, chars_glyph, ih]

@[simp] theorem markers_charToks (page : Option Nat) (t : List Char) : markers (charToks page t) = [] := by
  induction t with
  | nil => rfl
  | cons c t ih => rw [charToks_cons, markers_glyph, ih]

/-! ### The characters of a marker -/

theorem digit?_digitChar : ∀ d < 10, digit? d.digitChar = some d := by decide

theorem mem_toDigits {q : Nat} {c : Char} (h : c ∈ Nat.toDigits 10 q) : ∃ d < 10, c = d.digitChar := by
  induction q using Nat.strongRecOn with
  | ind q ih =>
    rw [Nat.toDigits_eq_if (by omega)] at h
    by_cases hq : q < 10
    · rw [if_pos hq, List.mem_singleton] at h
      exact ⟨q, hq, h⟩
    · rw [if_neg hq, List.mem_append, List.mem_singleton] at h
      rcases h with h | h
      · exact ih (q / 10) (by omega) h
      · exact ⟨q % 10, by omega, h⟩

private theorem int_append (a : List Char) (c : Char) : int (a ++ [c]) = 10 * int a + (digit? c).getD 0 := by
  simp [int, List.foldl_append]

/-- The decimal digits of a number read back. -/
theorem int_toDigits (q : Nat) : int (Nat.toDigits 10 q) = q := by
  induction q using Nat.strongRecOn with
  | ind q ih =>
    rw [Nat.toDigits_eq_if (by omega)]
    by_cases hq : q < 10
    · rw [if_pos hq]
      have h := int_append [] q.digitChar
      rw [digit?_digitChar q hq] at h
      simpa [int] using h
    · rw [if_neg hq, int_append, ih (q / 10) (by omega), digit?_digitChar _ (by omega), Option.getD_some]
      omega

/-- No character of a marker ends a line. -/
theorem mem_markerText {q : Nat} {c : Char} (h : c ∈ markerText q) : c ≠ '\n' := by
  have hdigit : ∀ d < 10, d.digitChar ≠ '\n' := by decide
  rw [markerText, List.mem_append, List.mem_append, List.mem_append] at h
  rcases h with h | h | h | h
  · rintro rfl
    simp at h
  · rintro rfl
    simp at h
  · obtain ⟨d, hd, rfl⟩ := mem_toDigits h
    exact hdigit d hd
  · rintro rfl
    simp at h

/-! ### String functions on tokens -/

section Functions

variable {X : List Tok} {p : Char → Bool}

/-- What a class of characters does on tokens: a marker is passed as a whole, or not at all. -/
def Whole (p : Char → Bool) : Prop := p '#' = false ∨ ∀ c, c ≠ '\n' → p c

private theorem flat_dropWhile (hp : Whole p) (X : List Tok) :
    (flat X).dropWhile (fun g => p g.ch) = flat (X.dropWhile fun t => p t.ch) := by
  induction X with
  | nil => rfl
  | cons t X ih =>
    cases t with
    | glyph g =>
      by_cases hg : p g.ch
      · simp [hg, ih, Tok.ch]
      · simp [hg, Tok.ch]
    | marker q =>
      rcases hp with hp | hp
      · have hmark : p (Tok.marker q).ch = false := hp
        rw [List.dropWhile_cons_of_neg (by simp [hmark]), flat_marker, markerText, List.cons_append,
          List.map_cons, List.cons_append, List.dropWhile_cons_of_neg]
        simp [Glyph.lit, hp]
      · have hmark : p (Tok.marker q).ch = true := hp '#' (by decide)
        have hall : ∀ g ∈ (markerText q).map Glyph.lit, p g.ch := by
          intro g hg
          obtain ⟨c, hc, rfl⟩ := List.mem_map.mp hg
          exact hp c (mem_markerText hc)
        have hpass : (Tok.marker q :: X).dropWhile (fun t => p t.ch) = X.dropWhile fun t => p t.ch :=
          List.dropWhile_cons_of_pos hmark
        rw [hpass, flat_marker, List.dropWhile_append_of_pos hall, ih]

private theorem flat_takeWhile (hp : Whole p) (X : List Tok) :
    (flat X).takeWhile (fun g => p g.ch) = flat (X.takeWhile fun t => p t.ch) := by
  have hX : flat X = flat (X.takeWhile fun t => p t.ch) ++ (flat X).dropWhile fun g => p g.ch := by
    rw [flat_dropWhile hp, ← flat_append, List.takeWhile_append_dropWhile]
  have hsame := List.takeWhile_append_dropWhile (p := fun g : Glyph => p g.ch) (l := flat X)
  exact List.append_cancel_right (hsame.trans hX)

private theorem flat_lstrip (X : List Tok) : lstrip Glyph.ch (flat X) = flat (lstrip Tok.ch X) :=
  flat_dropWhile (Or.inl (by decide)) X

private theorem flat_rstrip (X : List Tok) : rstrip Glyph.ch (flat X) = flat (rstrip Tok.ch X) := by
  induction X using List.reverseRecOn with
  | nil => rfl
  | append_singleton X t ih =>
    cases t with
    | glyph g =>
      have hflat : flat (X ++ [.glyph g]) = flat X ++ [g] := by simp
      rw [hflat]
      by_cases hg : isSpace g.ch
      · have hleft : rstrip Glyph.ch (flat X ++ [g]) = rstrip Glyph.ch (flat X) :=
          List.rdropWhile_concat_pos _ _ _ hg
        have hright : rstrip Tok.ch (X ++ [.glyph g]) = rstrip Tok.ch X :=
          List.rdropWhile_concat_pos _ _ _ hg
        rw [hleft, hright, ih]
      · have hleft : rstrip Glyph.ch (flat X ++ [g]) = flat X ++ [g] :=
          List.rdropWhile_concat_neg _ _ _ hg
        have hright : rstrip Tok.ch (X ++ [.glyph g]) = X ++ [.glyph g] :=
          List.rdropWhile_concat_neg _ _ _ hg
        rw [hleft, hright, hflat]
    | marker q =>
      have hright : rstrip Tok.ch (X ++ [.marker q]) = X ++ [.marker q] :=
        List.rdropWhile_concat_neg _ _ _ (by decide : ¬ isSpace '#')
      have hflat : ∃ u, flat (X ++ [.marker q]) = u ++ [Glyph.lit ']'] := by
        refine ⟨flat X ++
          ((['#', '#', ' '] ++ (['[', 'P', 'a', 'g', 'e', ' '] ++ Nat.toDigits 10 q)).map Glyph.lit), ?_⟩
        simp [markerText]
      obtain ⟨u, hu⟩ := hflat
      rw [hright, hu]
      exact List.rdropWhile_concat_neg _ _ _ (by decide)

theorem flat_strip (X : List Tok) : strip Glyph.ch (flat X) = flat (strip Tok.ch X) := by
  rw [strip, flat_lstrip, flat_rstrip, strip]

private theorem whole_inLine : Whole fun c => c ≠ '\n' := Or.inr fun _ hc => by simpa using hc

theorem flat_firstLine (X : List Tok) : firstLine Glyph.ch (flat X) = flat (firstLine Tok.ch X) :=
  flat_takeWhile whole_inLine X

/-- What `partition` finds is a newline. -/
private theorem dropWhile_inLine (X : List Tok) :
    X.dropWhile (fun t => t.ch ≠ '\n') = [] ∨
    ∃ g Y, X.dropWhile (fun t => t.ch ≠ '\n') = .glyph g :: Y ∧ g.ch = '\n' := by
  cases h : X.dropWhile fun t => t.ch ≠ '\n' with
  | nil => exact Or.inl rfl
  | cons t Y =>
    right
    have ht : t.ch = '\n' := by
      have hhead := List.head?_dropWhile_not (fun t : Tok => decide (t.ch ≠ '\n')) X
      rw [h] at hhead
      simpa using hhead
    cases t with
    | glyph g => exact ⟨g, Y, rfl, ht⟩
    | marker q => exact absurd (show '#' = '\n' from ht) (by decide)

theorem flat_afterLine (X : List Tok) : afterLine Glyph.ch (flat X) = flat (afterLine Tok.ch X) := by
  have hdrop : (flat X).dropWhile (fun g => decide (g.ch ≠ '\n')) =
    flat (X.dropWhile fun t => decide (t.ch ≠ '\n')) :=
    flat_dropWhile whole_inLine X
  rw [afterLine, hdrop, afterLine]
  rcases dropWhile_inLine X with h | ⟨g, Y, h, -⟩ <;> rw [h] <;> rfl

/-! ### The markers stay -/

theorem markers_of_glyphs (h : ∀ t ∈ X, ∃ g, t = .glyph g) : markers X = [] := by
  refine List.filterMap_eq_nil_iff.mpr fun t ht => ?_
  obtain ⟨g, rfl⟩ := h t ht
  rfl

private theorem markers_lstrip (X : List Tok) : markers (lstrip Tok.ch X) = markers X := by
  induction X with
  | nil => rfl
  | cons t X ih =>
    by_cases ht : isSpace t.ch
    · have hpass : lstrip Tok.ch (t :: X) = lstrip Tok.ch X := List.dropWhile_cons_of_pos ht
      rw [hpass, ih]
      cases t with
      | glyph g => rfl
      | marker q => exact absurd (show isSpace '#' from ht) (by decide)
    · have hstop : lstrip Tok.ch (t :: X) = t :: X := List.dropWhile_cons_of_neg ht
      rw [hstop]

private theorem markers_rstrip (X : List Tok) : markers (rstrip Tok.ch X) = markers X := by
  induction X using List.reverseRecOn with
  | nil => rfl
  | append_singleton X t ih =>
    by_cases ht : isSpace t.ch
    · have hstrip : rstrip Tok.ch (X ++ [t]) = rstrip Tok.ch X := List.rdropWhile_concat_pos _ _ _ ht
      rw [hstrip, ih, markers_append]
      cases t with
      | glyph g => simp
      | marker q => exact absurd (show isSpace '#' from ht) (by decide)
    · have hstrip : rstrip Tok.ch (X ++ [t]) = X ++ [t] := List.rdropWhile_concat_neg _ _ _ ht
      rw [hstrip]

theorem markers_strip (X : List Tok) : markers (strip Tok.ch X) = markers X := by
  rw [strip, markers_rstrip, markers_lstrip]

theorem markers_lines (X : List Tok) :
    markers (firstLine Tok.ch X) ++ markers (afterLine Tok.ch X) = markers X := by
  have hX : markers X = markers (firstLine Tok.ch X) ++ markers
      (X.dropWhile fun t => decide (t.ch ≠ '\n')) := by
    rw [← markers_append, firstLine, List.takeWhile_append_dropWhile]
  rw [hX, afterLine]
  rcases dropWhile_inLine X with h | ⟨g, Y, h, -⟩ <;> rw [h] <;> rfl

end Functions

/-! ### Cutting a text -/

/-- A text can be cut between two tokens wherever a line begins or ends. -/
theorem exists_split {X : List Tok} {A B : List Glyph} (h : flat X = A ++ B)
    (hcut : A = [] ∨ B = [] ∨ A.getLast?.map Glyph.ch = some '\n' ∨ B.head?.map Glyph.ch = some '\n') :
    ∃ X₁ X₂, X = X₁ ++ X₂ ∧ flat X₁ = A ∧ flat X₂ = B := by
  induction X generalizing A with
  | nil =>
    obtain ⟨rfl, rfl⟩ := List.append_eq_nil_iff.mp h.symm
    exact ⟨[], [], rfl, rfl, rfl⟩
  | cons t X ih =>
    by_cases hA : A = []
    · subst hA
      exact ⟨[], t :: X, rfl, rfl, h⟩
    -- the rest of the text is cut at the same place
    have hgo : ∀ A', A = t.flat ++ A' → flat X = A' ++ B → ∃ X₁ X₂, t :: X = X₁ ++ X₂ ∧ flat X₁ = A ∧
        flat X₂ = B := by
      intro A' hAA' hX
      have hcut' : A' = [] ∨ B = [] ∨ A'.getLast?.map Glyph.ch = some '\n' ∨
          B.head?.map Glyph.ch = some '\n' := by
        by_cases hA' : A' = []
        · exact Or.inl hA'
        · have hlast : A.getLast? = A'.getLast? := by
            rw [hAA', List.getLast?_append_of_ne_nil _ hA']
          rw [hlast] at hcut
          exact Or.inr (hcut.resolve_left hA)
      obtain ⟨X₁, X₂, rfl, rfl, rfl⟩ := ih hX hcut'
      exact ⟨t :: X₁, X₂, rfl, hAA'.symm, rfl⟩
    cases t with
    | glyph g =>
      cases A with
      | nil => exact absurd rfl hA
      | cons a A' =>
        rw [flat_glyph, List.cons_append, List.cons.injEq] at h
        exact hgo A' (by rw [h.1]; rfl) h.2
    | marker q =>
      rw [flat_marker] at h
      rcases List.append_eq_append_iff.mp h with ⟨A', hA', hX⟩ | ⟨C, hC, hB⟩
      · exact hgo A' hA' hX
      · -- the cut is inside the marker, or at its end
        by_cases hCnil : C = []
        · subst hCnil
          refine hgo [] ?_ (by rw [hB]; rfl)
          rw [List.append_nil] at hC
          rw [List.append_nil]
          exact hC.symm
        have hmark : ∀ g ∈ A ++ C, g.ch ≠ '\n' := by
          intro g hg
          rw [← hC] at hg
          obtain ⟨c, hc, rfl⟩ := List.mem_map.mp hg
          exact mem_markerText hc
        exfalso
        rcases hcut with hcut | hcut | hcut | hcut
        · exact hA hcut
        · rw [hcut] at hB
          exact hCnil (List.append_eq_nil_iff.mp hB.symm).1
        · obtain ⟨g, hg, hch⟩ := Option.map_eq_some_iff.mp hcut
          exact hmark g (List.mem_append_left _ (List.mem_of_getLast? hg)) hch
        · obtain ⟨g, hg, hch⟩ := Option.map_eq_some_iff.mp hcut
          rw [hB, List.head?_append_of_ne_nil _ hCnil] at hg
          exact hmark g (List.mem_append_right _ (List.mem_of_head? hg)) hch

end LegalRag
