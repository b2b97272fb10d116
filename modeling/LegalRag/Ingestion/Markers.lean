import LegalRag.Ingestion.Tokens

/-!
# The page markers that the chunker finds

In a text whose markers stand on lines of their own (`Lines`), and in which `[Page` stands nowhere else,
the matches of `_RE_PAGE` are exactly the markers (`pages_eq`).
-/

namespace LegalRag

open PyStr Regex

/-- Every marker stands on a line of its own, `prev` being the character before the text. -/
def Lines : Option Char → List Tok → Prop
  | _, [] => True
  | _, .glyph g :: X => Lines (some g.ch) X
  | prev, .marker _ :: X =>
    (prev = none ∨ prev = some '\n') ∧ (∀ t ∈ X.head?, t.ch = '\n') ∧ Lines (some ']') X

/-- `[Page`, which a text must not contain outside the markers. -/
def pageWord : List Char := ['[', 'P', 'a', 'g', 'e']

/-- `[Page` stands in markers only. -/
def NoPage (X : List Tok) : Prop := ¬ pageWord <:+: X.map Tok.ch

/-- The pages that `_RE_PAGE` finds in a text. -/
def pagesIn (text : List Char) : List Nat := (finditer rePage text).map fun h => int h.group

theorem pageRangeFor_eq (text : List Char) : pageRangeFor text =
    ((pagesIn text).min?, (pagesIn text).max?) := rfl

/-! ### Parts of a text -/

private theorem chars_marker_cons (q : Nat) (X : List Tok) : ∃ s, chars (.marker q :: X) =
    '#' :: '#' :: ' ' :: s := by
  refine ⟨['[', 'P', 'a', 'g', 'e', ' '] ++ (Nat.toDigits 10 q ++ [']']) ++ chars X, ?_⟩
  simp [markerText]

section Parts

variable {prev : Option Char} {X Y : List Tok}

theorem Lines.newline (h : Lines prev X) : Lines (some '\n') X := by
  cases X with
  | nil => trivial
  | cons t X =>
    cases t with
    | glyph g => exact h
    | marker q => exact ⟨Or.inr rfl, h.2⟩

private theorem Lines.left (h : Lines prev (X ++ Y)) : Lines prev X := by
  induction X generalizing prev with
  | nil => trivial
  | cons t X ih =>
    cases t with
    | glyph g => exact ih h
    | marker q =>
      refine ⟨h.1, ?_, ih h.2.2⟩
      intro t ht
      refine h.2.1 t ?_
      cases X with
      | nil => cases ht
      | cons u X => exact ht

private theorem Lines.right (h : Lines prev (X ++ Y)) : ∃ prev', Lines prev' Y := by
  induction X generalizing prev with
  | nil => exact ⟨prev, h⟩
  | cons t X ih =>
    cases t with
    | glyph g => exact ih h
    | marker q => exact ih h.2.2

/-- The markers of a part stand on lines of their own when the part stands after a newline. -/
theorem Lines.part (h : Lines prev X) (hY : Y <:+: X) : Lines (some '\n') Y := by
  obtain ⟨A, B, rfl⟩ := hY
  obtain ⟨prev', h⟩ := h.left.right
  exact h.newline

theorem lines_of_markers (h : markers X = []) : Lines prev X := by
  induction X generalizing prev with
  | nil => trivial
  | cons t X ih =>
    cases t with
    | glyph g => exact ih h
    | marker q => cases h

/-- Two texts with a blank line between them. -/
theorem Lines.blank (hX : Lines prev X) (hY : Lines (some '\n') Y) :
    Lines prev (X ++ .newline :: .newline :: Y) := by
  induction X generalizing prev with
  | nil => exact hY
  | cons t X ih =>
    cases t with
    | glyph g => exact ih hX
    | marker q =>
      refine ⟨hX.1, ?_, ih hX.2.2⟩
      intro t ht
      cases X with
      | nil =>
        obtain rfl : Tok.newline = t := Option.some.inj ht
        rfl
      | cons u X => exact hX.2.1 t ht

theorem NoPage.part (h : NoPage X) (hY : Y <:+: X) : NoPage Y := fun hp => h (hp.trans (hY.map Tok.ch))

/-- `[Page` does not come about where a character stands between two texts that it does not contain. -/
private theorem infix_around {α : Type} {w A B : List α} {c : α} (hc : c ∉ w) (h : w <:+: A ++ c :: B) :
    w <:+: A ∨ w <:+: B := by
  obtain ⟨u, v, huv⟩ := h
  rcases List.append_eq_append_iff.mp huv with ⟨a, rfl, h⟩ | ⟨a, h, hB⟩
  · exact Or.inl ⟨u, a, rfl⟩
  · cases a with
    | nil =>
      left
      rw [List.append_nil] at h
      exact ⟨u, [], by rw [List.append_nil]; exact h⟩
    | cons d a =>
      rw [List.cons_append, List.cons.injEq] at hB
      obtain ⟨rfl, rfl⟩ := hB
      rcases List.append_eq_append_iff.mp h with ⟨b, hA, hw⟩ | ⟨b, hu, hb⟩
      · exact absurd (by rw [hw]; exact List.mem_append_right _ List.mem_cons_self) hc
      · cases b with
        | nil =>
          rw [List.nil_append] at hb
          exact absurd (by rw [← hb]; exact List.mem_cons_self) hc
        | cons e b =>
          rw [List.cons_append, List.cons.injEq] at hb
          exact Or.inr ⟨b, v, by rw [hb.2]⟩

theorem NoPage.around {t : Tok} (hX : NoPage X) (hY : NoPage Y) (ht : t.ch ∉ pageWord) :
    NoPage (X ++ t :: Y) := by
  intro h
  rw [List.map_append, List.map_cons] at h
  rcases infix_around ht h with h | h
  · exact hX h
  · exact hY h

theorem noPage_nil : NoPage [] := by
  intro h
  have hlen := h.length_le
  simp [pageWord] at hlen

theorem NoPage.blank (hX : NoPage X) (hY : NoPage Y) : NoPage (X ++ .newline :: .newline :: Y) := by
  have hrest : NoPage (.newline :: Y) := noPage_nil.around hY (by decide)
  exact hX.around hrest (by decide)

/-- The rest of a line of which the beginning is known: no marker is in it. -/
theorem markers_of_line {a b : List Char} (hl : Lines prev X) (h : chars X = a ++ b) (ha : a ≠ [])
    (hmark : '#' ∉ a) (hlast : a.getLast? ≠ some '\n') (hb : '\n' ∉ b) : markers X = [] := by
  -- once in `b`, no newline has come before
  have hline : ∀ {X : List Tok} {p : Char} {b : List Char}, Lines (some p) X → p ≠ '\n' →
    chars X = b → '\n' ∉ b → markers X = [] := by
    intro X
    induction X with
    | nil => intro p b _ _ _ _; rfl
    | cons t X ih =>
      intro p b hl hp hX hb
      cases t with
      | glyph g =>
        rw [chars_glyph] at hX
        subst hX
        rw [List.mem_cons, not_or] at hb
        exact ih hl (fun he => hb.1 he.symm) rfl hb.2
      | marker q =>
        rcases hl.1 with h | h
        · cases h
        · exact absurd (Option.some.inj h) hp
  induction X generalizing prev a with
  | nil => rfl
  | cons t X ih =>
    cases a with
    | nil => exact absurd rfl ha
    | cons c a =>
      rw [List.mem_cons, not_or] at hmark
      cases t with
      | glyph g =>
        rw [chars_glyph, List.cons_append, List.cons.injEq] at h
        by_cases hnil : a = []
        · subst hnil
          refine @hline X g.ch b hl ?_ h.2 hb
          rw [h.1]
          simpa using hlast
        · refine ih hl h.2 hnil hmark.2 ?_
          cases a with
          | nil => exact absurd rfl hnil
          | cons d a => simpa using hlast
      | marker q =>
        obtain ⟨s, hs⟩ := chars_marker_cons q X
        rw [hs, List.cons_append, List.cons.injEq] at h
        exact absurd h.1 hmark.1

end Parts

/-! ### The expression, piece by piece -/

theorem rePage_eq : rePage = .lineStart :: (['#', '#'].map (fun c => Atom.one (· = c)) ++ (plus isSpace ++
    (pageWord.map (fun c => Atom.one (· = c)) ++ (plus isSpace ++ (.mark :: (plus isDigit ++ (.mark ::
      ([']'].map (fun c => Atom.one (· = c)) ++ [.star isSpace, .lineEnd])))))))) := rfl

/-- The text begins with what `_RE_PAGE` takes, apart from `^`. -/
def PageLine (s : List Char) : Prop :=
  ∃ a b d e rest, s = ['#', '#'] ++ (a ++ (pageWord ++ (b ++ (d ++ ([']'] ++ (e ++ rest)))))) ∧
    (a ≠ [] ∧ ∀ c ∈ a, isSpace c) ∧ (b ≠ [] ∧ ∀ c ∈ b, isSpace c) ∧ (d ≠ [] ∧ ∀ c ∈ d, isDigit c) ∧
    (∀ c ∈ e, isSpace c) ∧ (rest.head? = none ∨ rest.head? = some '\n')

private theorem pageLine_of_run {prev : Option Char} {s : List Char} {m : Match}
    (h : run rePage prev s = some m) : (prev = none ∨ prev = some '\n') ∧ PageLine s := by
  rw [rePage_eq] at h
  obtain ⟨hprev, h₁⟩ := run_lineStart h
  obtain ⟨s₁, rfl, h₂⟩ := run_lit h₁
  obtain ⟨a, s₂, rfl, hane, ha, h₃⟩ := run_plus h₂
  obtain ⟨s₃, rfl, h₄⟩ := run_lit h₃
  obtain ⟨b, s₄, rfl, hbne, hb, h₅⟩ := run_plus h₄
  obtain ⟨m₁, h₆, -⟩ := run_mark h₅
  obtain ⟨d, s₅, rfl, hdne, hd, h₇⟩ := run_plus h₆
  obtain ⟨m₂, h₈, -⟩ := run_mark h₇
  obtain ⟨s₆, rfl, h₉⟩ := run_lit h₈
  obtain ⟨e, s₇, rfl, he, h₁₀⟩ := run_star h₉
  obtain ⟨hend, -⟩ := run_lineEnd h₁₀
  exact ⟨hprev, a, b, d, e, s₇, rfl, ⟨hane, ha⟩, ⟨hbne, hb⟩, ⟨hdne, hd⟩, he, hend⟩

theorem run_rePage_isSome {prev : Option Char} {s : List Char} :
    (run rePage prev s).isSome ↔ (prev = none ∨ prev = some '\n') ∧ PageLine s := by
  constructor
  · intro h
    obtain ⟨m, hm⟩ := Option.isSome_iff_exists.mp h
    exact pageLine_of_run hm
  · rintro ⟨hprev, a, b, d, e, rest, rfl, ⟨hane, ha⟩, ⟨hbne, hb⟩, ⟨hdne, hd⟩, he, hend⟩
    rw [rePage_eq, run, if_pos hprev, run_lit_append]
    refine isSome_plus hane ha ?_
    rw [run_lit_append]
    refine isSome_plus hbne hb ?_
    rw [isSome_mark]
    refine isSome_plus hdne hd ?_
    rw [isSome_mark, run_lit_append]
    refine isSome_star he ?_
    rw [run, if_pos hend]
    rfl

theorem isDigit_of_mem_toDigits {q : Nat} {c : Char} (h : c ∈ Nat.toDigits 10 q) : isDigit c := by
  obtain ⟨d, hd, rfl⟩ := mem_toDigits h
  rw [isDigit, digit?_digitChar d hd]
  rfl

private theorem head_toDigits {q : Nat} {s : List Char} : ∀ c ∈ (Nat.toDigits 10 q ++ s).head?,
    isSpace c = false := by
  have hdigit : ∀ d < 10, isSpace d.digitChar = false := by decide
  intro c hc
  rw [List.head?_append_of_ne_nil _ Nat.toDigits_ne_nil] at hc
  obtain ⟨d, hd, rfl⟩ := mem_toDigits (List.mem_of_head? hc)
  exact hdigit d hd

/-- A marker is matched, and the match takes no more than spaces after it. -/
private theorem run_marker {prev : Option Char} {q : Nat} {s : List Char}
    (hprev : prev = none ∨ prev = some '\n') (hs : s.head? = none ∨ s.head? = some '\n') :
    ∃ m n, run rePage prev (markerText q ++ s) = some m ∧ m.group = Nat.toDigits 10 q ∧
      n ≤ (s.takeWhile isSpace).length ∧ m.rest = s.drop n := by
  obtain ⟨n, hn, hend⟩ := @run_star_lineEnd isSpace (some ']') s hs
  refine ⟨⟨s.drop n, [Nat.toDigits 10 q ++ (']' :: s), ']' :: s]⟩, n, ?_, ?_, hn, rfl⟩
  · -- from the bracket back to the number, and then from the front
    have hclose : ∀ p : Option Char, run ([']'].map (fun c => Atom.one (· = c)) ++
      [.star isSpace, .lineEnd]) p (']' :: s) = some ⟨s.drop n, []⟩ := by
      intro p
      have h := @run_lit_append [.star isSpace, .lineEnd] p s [']']
      exact h.trans hend
    have hmark : ∀ p : Option Char,
      run (.mark :: ([']'].map (fun c => Atom.one (· = c)) ++ [.star isSpace, .lineEnd])) p
        (']' :: s) = some ⟨s.drop n, [']' :: s]⟩ := by
      intro p
      rw [run, hclose]
      rfl
    have hdigits : ∀ p : Option Char,
      run (plus isDigit ++ (.mark :: ([']'].map (fun c => Atom.one (· = c)) ++
        [.star isSpace, .lineEnd]))) p (Nat.toDigits 10 q ++ (']' :: s)) = some ⟨s.drop n, [']' :: s]⟩ := by
      intro p
      exact run_plus_append Nat.toDigits_ne_nil (fun c hc => isDigit_of_mem_toDigits hc)
        (by simp; decide) (hmark _)
    have htext : markerText q ++ s =
        ['#', '#'] ++ ([' '] ++ (pageWord ++ ([' '] ++ (Nat.toDigits 10 q ++ (']' :: s))))) :=
        by simp [markerText, pageWord]
    have hspace : ∀ c ∈ [' '], isSpace c := by
      intro c hc
      rw [List.mem_singleton.mp hc]
      rfl
    rw [rePage_eq, run, if_pos hprev, htext, run_lit_append]
    refine run_plus_append (by simp) hspace (by simp [pageWord]; decide) ?_
    rw [run_lit_append]
    refine run_plus_append (by simp) hspace head_toDigits ?_
    rw [run, hdigits]
    rfl
  · simp [Match.group]

/-- A text whose characters begin with `a`, which has no `#`, begins with the glyphs of `a`. -/
theorem exists_glyphs {X : List Tok} {a s : List Char} (h : chars X = a ++ s) (ha : '#' ∉ a) :
    ∃ Y Z, X = Y ++ Z ∧ Y.map Tok.ch = a ∧ chars Z = s := by
  induction a generalizing X with
  | nil => exact ⟨[], X, rfl, rfl, h⟩
  | cons c a ih =>
    cases X with
    | nil => cases h
    | cons t X =>
      cases t with
      | glyph g =>
        rw [chars_glyph, List.cons_append, List.cons.injEq] at h
        obtain ⟨Y, Z, rfl, hY, hZ⟩ := ih h.2 fun hm => ha (List.mem_cons_of_mem _ hm)
        exact ⟨.glyph g :: Y, Z, rfl, by rw [List.map_cons, hY]; rw [← h.1]; rfl, hZ⟩
      | marker q =>
        obtain ⟨u, hu⟩ := chars_marker_cons q X
        rw [hu, List.cons_append, List.cons.injEq] at h
        exact absurd (by rw [h.1]; exact List.mem_cons_self) ha

/-- Where `[Page` stands in markers only, it does not come after two `#` and spaces that begin at a
glyph. -/
private theorem chars_ne_page {g : Glyph} {X : List Tok} (hX : NoPage (.glyph g :: X)) {a r : List Char}
    (hne : a ≠ [])
    (ha : ∀ c ∈ a, isSpace c) : chars (.glyph g :: X) ≠ ['#', '#'] ++ (a ++ (pageWord ++ r)) := by
  intro hs
  have hspace : '#' ∉ a := fun hmem => absurd (ha _ hmem) (by decide)
  rw [chars_glyph, List.cons_append, List.cons.injEq] at hs
  obtain ⟨-, hs⟩ := hs
  cases X with
  | nil => cases hs
  | cons t X =>
    cases t with
    | marker q =>
      -- after the first two characters of a marker comes a space, after its first one none
      obtain ⟨u, hu⟩ := chars_marker_cons q X
      rw [hu] at hs
      cases a with
      | nil => exact hne rfl
      | cons c a =>
        simp only [List.cons_append, List.nil_append, List.cons.injEq] at hs
        exact hspace (by rw [← hs.2.1]; exact List.mem_cons_self)
    | glyph g' =>
      rw [chars_glyph, List.cons_append, List.nil_append, List.cons.injEq] at hs
      have hword : '#' ∉ a ++ pageWord := by
        rw [List.mem_append]
        rintro (h | h)
        · exact hspace h
        · revert h
          decide
      obtain ⟨Y, Z, rfl, hY, -⟩ := exists_glyphs (hs.2.trans (List.append_assoc _ _ _).symm) hword
      refine hX ⟨Tok.ch (.glyph g) :: Tok.ch (.glyph g') :: a, Z.map Tok.ch, ?_⟩
      simp [hY]

/-- No match begins at a glyph, even if the text is cut short. -/
theorem not_pageLine_glyph {g : Glyph} {X : List Tok} (hX : NoPage (.glyph g :: X)) {s : List Char}
    (hs : s <+: chars (.glyph g :: X)) : ¬ PageLine s := by
  rintro ⟨a, b, d, e, rest, rfl, ⟨hne, ha⟩, -⟩
  obtain ⟨r, hr⟩ := hs
  refine chars_ne_page hX hne ha (r := b ++ (d ++ ([']'] ++ (e ++ rest))) ++ r) ?_
  rw [← hr]
  simp only [List.append_assoc]

private theorem head_chars {X : List Tok} (h : ∀ t ∈ X.head?, t.ch = '\n') :
    (chars X).head? = none ∨ (chars X).head? = some '\n' := by
  cases X with
  | nil => exact Or.inl rfl
  | cons t X =>
    have ht : t.ch = '\n' := h t rfl
    cases t with
    | glyph g => exact Or.inr (congrArg some ht)
    | marker q => exact absurd (show '#' = '\n' from ht) (by decide)

/-- The spaces at the front of a text are glyphs. -/
private theorem length_spaces (X : List Tok) :
    ((chars X).takeWhile isSpace).length = (X.takeWhile fun t => isSpace t.ch).length := by
  induction X with
  | nil => rfl
  | cons t X ih =>
    cases t with
    | glyph g =>
      rw [chars_glyph]
      by_cases hg : isSpace g.ch
      · have htake : (Tok.glyph g :: X).takeWhile (fun t => isSpace t.ch) =
          .glyph g :: X.takeWhile fun t => isSpace t.ch :=
          List.takeWhile_cons_of_pos hg
        rw [htake, List.takeWhile_cons_of_pos hg, List.length_cons, List.length_cons, ih]
      · have htake : (Tok.glyph g :: X).takeWhile (fun t => isSpace t.ch) = [] :=
          List.takeWhile_cons_of_neg hg
        rw [htake, List.takeWhile_cons_of_neg hg]
        rfl
    | marker q =>
      obtain ⟨s, hs⟩ := chars_marker_cons q X
      have htake : (Tok.marker q :: X).takeWhile (fun t => isSpace t.ch) = [] :=
        List.takeWhile_cons_of_neg (by decide : ¬ isSpace '#')
      rw [htake, hs, List.takeWhile_cons_of_neg (by decide)]
      rfl

/-! ### Cutting a text at its markers -/

/-- No match begins at a character of the text, `prev` being the character before it. -/
def NoHit : Option Char → List Tok → Prop
  | _, [] => True
  | prev, .glyph g :: X => run rePage prev (chars (.glyph g :: X)) = none ∧ NoHit (some g.ch) X
  | _, .marker _ :: X => NoHit (some ']') X

private theorem run_of_not_pageLine {prev : Option Char} {s : List Char} (h : ¬ PageLine s) :
    run rePage prev s = none := by
  by_contra hne
  exact h (run_rePage_isSome.mp (Option.isSome_iff_ne_none.mpr hne)).2

theorem run_newline (prev : Option Char) (X : List Tok) : run rePage prev (chars (.newline :: X)) = none := by
  refine run_of_not_pageLine ?_
  rintro ⟨a, b, d, e, rest, hs, -⟩
  exact absurd (List.cons.inj hs).1 (by decide)

/-- Characters before a text, at which no match begins in the whole. -/
theorem noHit_glyphs {H X : List Tok} {prev : Option Char} (hH : markers H = [])
    (hrun : ∀ a b, chars H = a ++ b → b ≠ [] → run rePage (lastOr prev a) (b ++ chars X) = none)
    (hX : NoHit (lastOr prev (chars H)) X) : NoHit prev (H ++ X) := by
  induction H generalizing prev with
  | nil => exact hX
  | cons t H ih =>
    cases t with
    | marker q => cases hH
    | glyph g =>
      rw [chars_glyph] at hrun hX
      refine ⟨?_, ih hH ?_ ?_⟩
      · have hfirst := hrun [] _ rfl (List.cons_ne_nil _ _)
        have hchars : chars (.glyph g :: (H ++ X)) = g.ch :: chars H ++ chars X := by
          rw [chars_glyph, chars_append, List.cons_append]
        exact hchars ▸ hfirst
      · intro a b hab hb
        have hlater := hrun (g.ch :: a) b (by rw [hab, List.cons_append]) hb
        rwa [lastOr_cons] at hlater
      · rwa [lastOr_cons] at hX

/-- No match begins at a character of the text, whatever stands before it. -/
def Unmatched : List Tok → Prop
  | [] => True
  | .glyph g :: X => ¬ PageLine (chars (.glyph g :: X)) ∧ Unmatched X
  | .marker _ :: X => Unmatched X

theorem Unmatched.noHit {X : List Tok} (h : Unmatched X) (prev : Option Char) : NoHit prev X := by
  induction X generalizing prev with
  | nil => trivial
  | cons t X ih =>
    cases t with
    | glyph g => exact ⟨run_of_not_pageLine h.1, ih h.2 _⟩
    | marker q => exact ih h _

theorem NoPage.unmatched {X : List Tok} (h : NoPage X) : Unmatched X := by
  induction X with
  | nil => trivial
  | cons t X ih =>
    have hX : NoPage X := fun hp => h (hp.trans (List.suffix_cons _ _).isInfix)
    cases t with
    | glyph g => exact ⟨not_pageLine_glyph h (List.prefix_refl _), ih hX⟩
    | marker q => exact ih hX

/-- What stands before the first marker. -/
def beforeMarker : List Tok → List Tok
  | .glyph g :: X => .glyph g :: beforeMarker X
  | _ => []

/-- The markers, with what stands between each one and the next, without the spaces around it. -/
def segments : List Tok → List (Nat × List Char)
  | [] => []
  | .glyph _ :: X => segments X
  | .marker q :: X => (q, strip id (chars (beforeMarker X))) :: segments X

private theorem segments_pages (X : List Tok) : (segments X).map Prod.fst = markers X := by
  induction X with
  | nil => rfl
  | cons t X ih =>
    cases t with
    | glyph g => exact ih
    | marker q => exact congrArg (q :: ·) ih

theorem beforeMarker_charToks (page : Option Nat) (t : List Char) (X : List Tok) :
    beforeMarker (charToks page t ++ X) = charToks page t ++ beforeMarker X := by
  induction t with
  | nil => rfl
  | cons c t ih => rw [charToks_cons, List.cons_append, beforeMarker, ih, List.cons_append]

theorem segments_charToks (page : Option Nat) (t : List Char) (X : List Tok) :
    segments (charToks page t ++ X) = segments X := by
  induction t with
  | nil => rfl
  | cons c t ih => rw [charToks_cons, List.cons_append, segments, ih]

private theorem spaces_beforeMarker (X : List Tok) :
    (beforeMarker X).takeWhile (fun t => isSpace t.ch) = X.takeWhile fun t => isSpace t.ch := by
  induction X with
  | nil => rfl
  | cons t X ih =>
    cases t with
    | glyph g => simp only [beforeMarker, List.takeWhile_cons, ih]
    | marker q =>
      have hstop : (Tok.marker q :: X).takeWhile (fun t => isSpace t.ch) = [] :=
        List.takeWhile_cons_of_neg (by decide : ¬ isSpace '#')
      rw [hstop]
      rfl

/-- Spaces at the front do not matter to `strip`. -/
private theorem strip_drop {text : List Char} {n : Nat} (h : n ≤ (text.takeWhile isSpace).length) :
    strip id (text.drop n) = strip id text := by
  have hspaces : ∀ c ∈ text.take n, isSpace (id c) := by
    intro c hc
    rw [← List.takeWhile_append_dropWhile (p := isSpace) (l := text), List.take_append_of_le_length h] at hc
    exact List.mem_takeWhile_imp (List.mem_of_mem_take hc)
  have hpad := strip_pad (s := text.drop n) hspaces (b := []) (by simp)
  rw [List.take_append_drop, List.append_nil] at hpad
  exact hpad.symm

/-- Cutting the characters at the matches is cutting the tokens at the markers. -/
theorem cutFrom_chars {X : List Tok} {prev : Option Char} (hl : Lines prev X) (hn : NoHit prev X)
    {skip : Nat} (hskip : skip ≤ (X.takeWhile fun t => isSpace t.ch).length) :
    (cutFrom rePage skip prev (chars X)).1 = (chars (beforeMarker X)).drop skip ∧
      (cutFrom rePage skip prev (chars X)).2.map (fun p => (int p.1, strip id p.2)) = segments X := by
  induction X generalizing prev skip with
  | nil => cases skip <;> exact ⟨by simp [cutFrom, beforeMarker], rfl⟩
  | cons t X ih =>
    cases t with
    | glyph g =>
      rw [chars_glyph, beforeMarker, chars_glyph, segments]
      cases skip with
      | succ skip =>
        rw [cutFrom, List.drop_succ_cons]
        refine ih hl hn.2 ?_
        by_cases hg : isSpace g.ch
        · have htake : (Tok.glyph g :: X).takeWhile (fun t => isSpace t.ch) =
            .glyph g :: X.takeWhile fun t => isSpace t.ch :=
            List.takeWhile_cons_of_pos hg
          rw [htake, List.length_cons] at hskip
          omega
        · have htake : (Tok.glyph g :: X).takeWhile (fun t => isSpace t.ch) = [] :=
            List.takeWhile_cons_of_neg hg
          rw [htake, List.length_nil] at hskip
          omega
      | zero =>
        obtain ⟨hfirst, hrest⟩ := ih hl hn.2 (Nat.zero_le _)
        rw [cutFrom, ← chars_glyph, hn.1]
        exact ⟨congrArg (g.ch :: ·) hfirst, hrest⟩
    | marker q =>
      obtain ⟨hprev, hend, hlX⟩ := hl
      have htake : (Tok.marker q :: X).takeWhile (fun t => isSpace t.ch) = [] :=
        List.takeWhile_cons_of_neg (by decide : ¬ isSpace '#')
      have hskip : skip = 0 := by
        rw [htake, List.length_nil] at hskip
        omega
      subst hskip
      obtain ⟨m, n, hm, hgroup, hle, hrest⟩ := run_marker hprev (head_chars hend)
      -- the match, and what it takes
      obtain ⟨tail, htail, hlast⟩ : ∃ tail, markerText q = '#' :: tail ∧
          lastOr (some '#') tail = some ']' := by
        refine ⟨['#', ' '] ++ (['[', 'P', 'a', 'g', 'e', ' '] ++ (Nat.toDigits 10 q ++ [']'])), rfl, ?_⟩
        rw [lastOr_append, lastOr_append, lastOr_append]
        rfl
      have hlen : ('#' :: tail ++ chars X).length - m.rest.length - 1 = tail.length + n := by
        have hspaces : n ≤ (chars X).length := Nat.le_trans hle (List.takeWhile_sublist _).length_le
        rw [hrest, List.length_drop, List.length_append, List.length_cons]
        omega
      rw [length_spaces] at hle
      have hnX : NoHit (some ']') X := hn
      rw [← hlast] at hlX hnX
      obtain ⟨hbefore, hsegments⟩ := ih hlX hnX hle
      rw [chars_marker, htail, List.cons_append, segments]
      rw [htail, List.cons_append] at hm
      rw [cutFrom, hm]
      dsimp only
      rw [← List.cons_append, hlen, cutFrom_skip]
      refine ⟨rfl, ?_⟩
      rw [List.map_cons, hsegments, hgroup, int_toDigits, hbefore, strip_drop]
      rwa [length_spaces, spaces_beforeMarker]

/-- The pages that the chunker finds are those of the markers. -/
theorem pagesIn_chars {X : List Tok} (hl : Lines none X) (hn : NoHit none X) :
    pagesIn (chars X) = markers X := by
  have hgroups := cutFrom_groups rePage 0 0 none (chars X)
  have hsegments := (cutFrom_chars hl hn (Nat.zero_le _)).2
  rw [pagesIn, finditer]
  calc (hitsFrom rePage 0 0 none (chars X)).map (fun h => int h.group)
    _ = ((cutFrom rePage 0 none (chars X)).2.map Prod.fst).map int := by rw [hgroups, List.map_map]; rfl
    _ = (segments X).map Prod.fst := by rw [← hsegments, List.map_map, List.map_map]; rfl
    _ = markers X := segments_pages X

end LegalRag
