import LegalRag.Ingestion.Pages

/-!
# The sections of the markdown of a PDF

A section of `_split_by_dieu` is read as tokens (`exists_placed`): it begins with `Điều`, so that its
title holds no marker (`markers_title`), and all markers between its beginning and its end are in its body
(`markers_body`); the first section has those of the preamble besides.
-/

namespace LegalRag

open PyStr Regex

/-! ### What the expressions match -/

section Expressions

variable {isWord : Char → Bool} {prev : Option Char} {s : List Char} {m : Match}

/-- A match of `_RE_DIEU` stands at the beginning of a line and is `Điều` after spaces. -/
theorem run_reDieu (h : run (reDieu isWord) prev s = some m) :
    (prev = none ∨ prev = some '\n') ∧
    ∃ ws u, s = ws ++ 'Đ' :: u ∧ (∀ c ∈ ws, isSpace c) ∧ ws.length < s.length - m.rest.length := by
  have heq : reDieu isWord = .lineStart :: .star isSpace ::
    (['Đ', 'i', 'ề', 'u'].map (fun c => Atom.one (· = c)) ++
      (plus isSpace ++
        (.mark :: (plus isDigit ++ (.mark :: .boundary isWord :: [.star (· ≠ '\n'), .lineEnd]))))) := rfl
  rw [heq] at h
  obtain ⟨hprev, h₁⟩ := run_lineStart h
  obtain ⟨ws, b, rfl, hws, h₂⟩ := run_star h₁
  obtain ⟨b', rfl, h₃⟩ := run_lit h₂
  obtain ⟨a, rfl⟩ := run_suffix h₃
  refine ⟨hprev, ws, _, rfl, hws, ?_⟩
  simp only [List.length_append, List.length_cons]
  omega

/-- A match of `_RE_CHUONG` is a text without `#` that does not end a line, and the rest of its line. -/
private theorem run_reChuong (h : run (reChuong isWord) prev s = some m) :
    (prev = none ∨ prev = some '\n') ∧
    (m.rest.head? = none ∨ m.rest.head? = some '\n') ∧ ∃ a b, s = a ++ b ++ m.rest ∧ a ≠ [] ∧ '#' ∉ a ∧
      a.getLast? ≠ some '\n' ∧ '\n' ∉ b := by
  have heq : reChuong isWord = .lineStart :: .star isSpace ::
      ((["Cc", "Hh", "Ưư", "Ơơ", "Nn", "Gg"].map fun (s : String) (c : Char) => s.toList.contains c).map
        Atom.one ++
        (plus isSpace ++
          (.mark :: (plus isNumeral ++ (.mark :: .boundary isWord :: [.star (· ≠ '\n'), .lineEnd]))))) :=
          rfl
  rw [heq] at h
  -- what each part of the expression takes
  obtain ⟨hprev, h₁⟩ := run_lineStart h
  obtain ⟨ws, s₁, rfl, hws, h₂⟩ := run_star h₁
  obtain ⟨word, s₂, rfl, hword, h₃⟩ := run_classes h₂
  obtain ⟨sp, s₃, rfl, -, hsp, h₄⟩ := run_plus h₃
  obtain ⟨m₁, h₅, rfl⟩ := run_mark h₄
  obtain ⟨num, s₄, rfl, hne, hnum, h₆⟩ := run_plus h₅
  obtain ⟨m₂, h₇, rfl⟩ := run_mark h₆
  obtain ⟨dots, s₅, rfl, hdots, h₈⟩ := run_star (run_boundary h₇)
  obtain ⟨hend, h₉⟩ := run_lineEnd h₈
  obtain rfl : (⟨s₅, []⟩ : Match) = m₂ := by simpa [run] using h₉
  refine ⟨hprev, hend, ws ++ word ++ sp ++ num, dots, by simp, by simp [hne], ?_, ?_, ?_⟩
  · have hspace : isSpace '#' = false := by decide
    have hletter : ∀ q ∈ ["Cc", "Hh", "Ưư", "Ơơ", "Nn", "Gg"].map fun (s : String) (c : Char) =>
      s.toList.contains c, q '#' = false := by decide
    have hnumeral : isNumeral '#' = false := by decide
    simp only [List.mem_append, not_or]
    refine ⟨⟨⟨fun hm => ?_, fun hm => ?_⟩, fun hm => ?_⟩, fun hm => ?_⟩
    · have := hws _ hm
      simp [hspace] at this
    · obtain ⟨q, hq, hc⟩ := hword _ hm
      rw [hletter q hq] at hc
      cases hc
    · have := hsp _ hm
      simp [hspace] at this
    · have := hnum _ hm
      simp [hnumeral] at this
  · -- the numeral is not empty, and ends what comes before the dots
    have hnumeral : isNumeral '\n' = false := by decide
    rw [List.getLast?_append_of_ne_nil _ hne]
    intro hlast
    have hmem := hnum _ (List.mem_of_getLast? hlast)
    rw [hnumeral] at hmem
    cases hmem
  · intro hm
    simpa using hdots _ hm

end Expressions

/-! ### Where the sections begin and end -/

section Positions

variable {γ : Type} {ch : γ → Char} {lit : Char → γ} {isWord : Char → Bool} {md : List γ}

theorem section_of_hits {cs : List (Nat × List γ)} {pre : List γ} {hs : List Hit}
    (hsorted : hs.Pairwise fun h h' => h.start < h'.start ∧ h.start + h.length ≤ h'.start)
    (hbound : ∀ h ∈ hs, h.start + h.length ≤ md.length) {before after : List (Section γ)} {s : Section γ}
    (hsec : sectionsFrom ch lit cs md pre (hs.map Hit.start) = before ++ s :: after) :
    ∃ h ∈ hs, ∃ stop, s = sectionAt ch lit cs (if before.isEmpty then pre else []) md h.start stop ∧
      h.start + h.length ≤ stop ∧ (stop = md.length ∨ ∃ h' ∈ hs, h'.start = stop) ∧
      (before.isEmpty → hs.head? = some h) := by
  induction hs generalizing pre before with
  | nil => cases before <;> cases hsec
  | cons h hs ih =>
    rw [List.map_cons, sectionsFrom] at hsec
    rw [List.pairwise_cons] at hsorted
    cases before with
    | nil =>
      obtain ⟨rfl, -⟩ := List.cons.inj hsec
      refine ⟨h, List.mem_cons_self, _, rfl, ?_, ?_, fun _ => rfl⟩
      · cases hs with
        | nil => exact hbound h List.mem_cons_self
        | cons h' hs => exact (hsorted.1 h' List.mem_cons_self).2
      · cases hs with
        | nil => exact Or.inl rfl
        | cons h' hs => exact Or.inr ⟨h', by simp, rfl⟩
    | cons b before =>
      obtain ⟨-, hrest⟩ := List.cons.inj hsec
      obtain ⟨k, hk, stop, hs', hle, hstop, -⟩ :=
        ih hsorted.2 (fun h hh => hbound h (List.mem_cons_of_mem _ hh)) hrest
      refine ⟨k, List.mem_cons_of_mem _ hk, stop, ?_, hle, ?_, ?_⟩
      · rw [hs']
        simp
      · rcases hstop with hstop | ⟨k', hk', hstop⟩
        · exact Or.inl hstop
        · exact Or.inr ⟨k', List.mem_cons_of_mem _ hk', hstop⟩
      · intro hempty
        cases hempty

end Positions

/-! ### A section as tokens -/

/-- A character put in by the chunker. -/
def Tok.lit (c : Char) : Tok := .glyph (Glyph.lit c)

/-- A section whose text is `S`, after the preamble `P`. -/
abbrev sectionToks (P S : List Tok) : Section Tok := sectionAt Tok.ch Tok.lit [] P S 0 S.length

theorem sectionToks_title (P S : List Tok) :
    (sectionToks P S).title = strip Tok.ch (firstLine Tok.ch (strip Tok.ch S)) := by
  show strip Tok.ch (firstLine Tok.ch (strip Tok.ch ((S.take S.length).drop 0))) = _
  rw [List.take_length, List.drop_zero]

private theorem sectionToks_body (P S : List Tok) :
    (sectionToks P S).body =
      let b := strip Tok.ch (if P.isEmpty then afterLine Tok.ch (strip Tok.ch S)
        else P ++ [.newline, .newline] ++ afterLine Tok.ch (strip Tok.ch S))
      if b.isEmpty then firstLine Tok.ch (strip Tok.ch S) else b := by
  have hS : (S.take S.length).drop 0 = S := by rw [List.take_length, List.drop_zero]
  have hlit : litText Tok.lit "\n\n" = [.newline, .newline] := rfl
  simp only [sectionToks, sectionAt, hS, hlit]

theorem flat_isEmpty (X : List Tok) : (flat X).isEmpty = X.isEmpty := by
  cases X with
  | nil => rfl
  | cons t X => cases t <;> rfl

/-- The title and the body of a section are those of its tokens. -/
private theorem flat_section {cs : List (Nat × List Glyph)} {P S : List Tok} {md : List Glyph}
    {start stop : Nat} (hS : flat S = (md.take stop).drop start) :
    (sectionAt Glyph.ch Glyph.lit cs (flat P) md start stop).title = flat (sectionToks P S).title ∧
      (sectionAt Glyph.ch Glyph.lit cs (flat P) md start stop).body = flat (sectionToks P S).body := by
  have hlit : litText Glyph.lit "\n\n" = flat [.newline, .newline] := rfl
  constructor
  · rw [sectionToks_title, sectionAt, ← hS, flat_strip, flat_firstLine, flat_strip]
  · have hbody : ∀ b s : List Tok, (if (flat b).isEmpty then flat (firstLine Tok.ch s) else flat b) =
        flat (if b.isEmpty then firstLine Tok.ch s else b) := by
      intro b s
      rw [flat_isEmpty]
      by_cases hb : b.isEmpty
      · rw [if_pos hb, if_pos hb]
      · rw [if_neg hb, if_neg hb]
    have hpart : ∀ s : List Tok, (if (flat P).isEmpty then flat (afterLine Tok.ch s)
        else flat P ++ flat [.newline, .newline] ++ flat (afterLine Tok.ch s)) =
        flat (if P.isEmpty then afterLine Tok.ch s else P ++ [.newline, .newline] ++ afterLine Tok.ch s) := by
      intro s
      rw [flat_isEmpty]
      by_cases hP : P.isEmpty
      · rw [if_pos hP, if_pos hP]
      · rw [if_neg hP, if_neg hP, flat_append, flat_append]
    rw [sectionToks_body]
    simp only [sectionAt, ← hS, flat_strip, flat_afterLine, flat_firstLine, hlit, hpart, hbody]

section Tokens

variable {P S : List Tok}

/-- The text begins with `Điều`, after spaces. -/
def BeginsDieu (S : List Tok) : Prop :=
  ∃ W g Z, S = W ++ .glyph g :: Z ∧ (∀ t ∈ W, isSpace t.ch) ∧ g.ch = 'Đ'

/-- Without the spaces around it the text begins with that character. -/
private theorem BeginsDieu.strip (h : BeginsDieu S) : ∃ W g Z Y, S = W ++ .glyph g :: Z ∧
    (∀ t ∈ W, isSpace t.ch) ∧ PyStr.strip Tok.ch S = .glyph g :: Y ∧ g.ch = 'Đ' := by
  obtain ⟨W, g, Z, rfl, hW, hg⟩ := h
  have hspace : ¬ isSpace (Tok.glyph g).ch := by
    show ¬ isSpace g.ch
    rw [hg]
    decide
  have hleft : lstrip Tok.ch (W ++ .glyph g :: Z) = .glyph g :: Z := by
    rw [lstrip, List.dropWhile_append_of_pos hW]
    exact List.dropWhile_cons_of_neg hspace
  obtain ⟨A, hA⟩ := List.rdropWhile_prefix (fun t : Tok => isSpace t.ch) (.glyph g :: Z)
  have hstrip : PyStr.strip Tok.ch (W ++ .glyph g :: Z) = List.rdropWhile (fun t : Tok => isSpace t.ch)
      (.glyph g :: Z) := by
    rw [PyStr.strip, hleft, rstrip]
  rw [hstrip]
  cases hr : List.rdropWhile (fun t : Tok => isSpace t.ch) (.glyph g :: Z) with
  | nil =>
    have hall := List.rdropWhile_eq_nil_iff.mp hr (.glyph g) List.mem_cons_self
    exact absurd hall hspace
  | cons t Y =>
    rw [hr, List.cons_append, List.cons.injEq] at hA
    exact ⟨W, g, Z, Y, rfl, hW, by rw [hA.1], hg⟩

/-- The title begins with it as well. -/
theorem BeginsDieu.title (h : BeginsDieu S) (P : List Tok) : ∃ W g Z L, S = W ++ .glyph g :: Z ∧
    (∀ t ∈ W, isSpace t.ch) ∧
    (sectionToks P S).title = .glyph g :: L ∧ g.ch = 'Đ' ∧ ∀ t ∈ L, t.ch ≠ '\n' := by
  obtain ⟨W, g, Z, Y, hS, hW, hstrip, hg⟩ := h.strip
  have hline : firstLine Tok.ch (PyStr.strip Tok.ch S) = .glyph g :: Y.takeWhile fun t =>
      t.ch ≠ '\n' := by
    rw [hstrip, firstLine]
    refine List.takeWhile_cons_of_pos ?_
    show decide (g.ch ≠ '\n') = true
    rw [hg]
    decide
  have hbegin : BeginsDieu (firstLine Tok.ch (PyStr.strip Tok.ch S)) := ⟨[], g, _, hline, by simp, hg⟩
  obtain ⟨W', g', Z', L, hline', hW', htitle, -⟩ := hbegin.strip
  have hsame : g' = g := by
    rw [hline] at hline'
    cases W' with
    | nil => exact (Tok.glyph.inj (List.cons.inj hline').1).symm
    | cons t W' =>
      -- `Đ` is not a space
      have hspace := hW' t List.mem_cons_self
      rw [← (List.cons.inj hline').1, Tok.ch, hg] at hspace
      exact absurd hspace (by decide)
  rw [hsame] at htitle
  have hin : (PyStr.strip Tok.ch (firstLine Tok.ch (PyStr.strip Tok.ch S))) <:+: firstLine Tok.ch
    (PyStr.strip Tok.ch S) :=
    strip_part Tok.ch _
  refine ⟨W, g, Z, L, hS, hW, by rw [sectionToks_title, htitle], hg, ?_⟩
  intro t ht
  have hmemL : t ∈ firstLine Tok.ch (PyStr.strip Tok.ch S) := by
    refine hin.subset ?_
    rw [htitle]
    exact List.mem_cons_of_mem _ ht
  simpa using List.mem_takeWhile_imp hmemL

theorem firstLine_part (X : List Tok) : firstLine Tok.ch X <:+: X := (List.takeWhile_prefix _).isInfix

private theorem afterLine_part (X : List Tok) : afterLine Tok.ch X <:+: X :=
  (List.drop_suffix _ _).isInfix.trans (List.dropWhile_suffix _).isInfix

/-- The characters of the title: `Đ` and the rest of a line. -/
theorem BeginsDieu.title_chars (h : BeginsDieu S) (P : List Tok) :
    ∃ L, chars (sectionToks P S).title = ['Đ'] ++ L ∧ '\n' ∉ L := by
  obtain ⟨W, g, Z, L, -, -, htitle, hg, hL⟩ := h.title P
  refine ⟨chars L, ?_, ?_⟩
  · rw [htitle, chars_glyph, hg]
    rfl
  · intro hm
    obtain ⟨g', hg', hch⟩ := List.mem_map.mp hm
    obtain ⟨t, ht, hmem⟩ := List.mem_flatMap.mp hg'
    cases t with
    | glyph g'' =>
      obtain rfl : g' = g'' := by simpa [Tok.flat] using hmem
      exact hL _ ht hch
    | marker q =>
      obtain ⟨c, hc, rfl⟩ := List.mem_map.mp hmem
      exact mem_markerText hc hch

/-- The first line of a section holds no marker. -/
theorem markers_title {prev : Option Char} (hl : Lines prev S) (h : BeginsDieu S) :
    markers (sectionToks P S).title = [] := by
  have hin : (sectionToks P S).title <:+: S := by
    rw [sectionToks_title]
    exact (strip_part Tok.ch _).trans ((firstLine_part _).trans (strip_part Tok.ch S))
  obtain ⟨L, hchars, hno⟩ := h.title_chars P
  exact markers_of_line (hl.part hin) hchars (by simp) (by decide) (by decide) hno

private theorem markers_firstLine {prev : Option Char} (hl : Lines prev S) (h : BeginsDieu S) :
    markers (firstLine Tok.ch (PyStr.strip Tok.ch S)) = [] := by
  have htitle := markers_title (P := []) hl h
  rwa [sectionToks_title, markers_strip] at htitle

/-- The markers of a section are in its body. -/
theorem markers_body {prev : Option Char} (hl : Lines prev S) (h : BeginsDieu S) :
    markers (sectionToks P S).body = markers P ++ markers S := by
  have hfirst := markers_firstLine hl h
  have hafter : markers (afterLine Tok.ch (PyStr.strip Tok.ch S)) = markers S := by
    have hlines := markers_lines (PyStr.strip Tok.ch S)
    rwa [hfirst, List.nil_append, markers_strip] at hlines
  have hb : markers (PyStr.strip Tok.ch (if P.isEmpty then afterLine Tok.ch (PyStr.strip Tok.ch S)
      else P ++ [.newline, .newline] ++ afterLine Tok.ch (PyStr.strip Tok.ch S))) = markers P ++
          markers S := by
    rw [markers_strip]
    by_cases hP : P.isEmpty
    · rw [if_pos hP, hafter, List.isEmpty_iff.mp hP]
      rfl
    · rw [if_neg hP, markers_append, markers_append, hafter]
      simp [Tok.newline]
  rw [sectionToks_body]
  dsimp only
  generalize PyStr.strip Tok.ch (if P.isEmpty then afterLine Tok.ch (PyStr.strip Tok.ch S)
    else P ++ [.newline, .newline] ++ afterLine Tok.ch (PyStr.strip Tok.ch S)) = b at hb ⊢
  by_cases hempty : b.isEmpty
  · rw [List.isEmpty_iff.mp hempty] at hb
    rw [if_pos hempty, hfirst, ← hb]
    rfl
  · rw [if_neg hempty]
    exact hb

/-- The characters of a section come from the preamble or from the text, but for the blank line between
them. -/
theorem mem_section {t : Tok} (h : t ∈ (sectionToks P S).title ++ (sectionToks P S).body) :
    t ∈ P ∨ t ∈ S ∨ t = .newline := by
  have hline : t ∈ firstLine Tok.ch (PyStr.strip Tok.ch S) → t ∈ S := fun ht =>
    (strip_part Tok.ch S).subset ((firstLine_part _).subset ht)
  rcases List.mem_append.mp h with ht | ht
  · rw [sectionToks_title] at ht
    exact Or.inr (Or.inl (hline ((strip_part Tok.ch _).subset ht)))
  · rw [sectionToks_body] at ht
    have hafter : t ∈ afterLine Tok.ch (PyStr.strip Tok.ch S) → t ∈ S := fun ht =>
      (strip_part Tok.ch S).subset ((afterLine_part _).subset ht)
    have hb : t ∈ PyStr.strip Tok.ch (if P.isEmpty then afterLine Tok.ch (PyStr.strip Tok.ch S)
        else P ++ [.newline, .newline] ++ afterLine Tok.ch (PyStr.strip Tok.ch S)) → t ∈ P ∨ t ∈ S ∨
            t = .newline := by
      intro hb
      have hb := (strip_part Tok.ch _).subset hb
      by_cases hP : P.isEmpty
      · rw [if_pos hP] at hb
        exact Or.inr (Or.inl (hafter hb))
      · rw [if_neg hP, List.mem_append, List.mem_append] at hb
        rcases hb with (hb | hb) | hb
        · exact Or.inl hb
        · right; right
          simpa using hb
        · exact Or.inr (Or.inl (hafter hb))
    dsimp only at ht
    generalize PyStr.strip Tok.ch (if P.isEmpty then afterLine Tok.ch (PyStr.strip Tok.ch S)
      else P ++ [.newline, .newline] ++ afterLine Tok.ch (PyStr.strip Tok.ch S)) = b at hb ht
    by_cases hempty : b.isEmpty
    · rw [if_pos hempty] at ht
      exact Or.inr (Or.inl (hline ht))
    · rw [if_neg hempty] at ht
      exact hb ht

/-- The body is a text whose markers stand on lines of their own, and so on. -/
theorem body_clean {prev prev' : Option Char} (hP : Lines prev' P) (hS : Lines prev S) (hnP : NoPage P)
    (hnS : NoPage S) : Lines (some '\n') (sectionToks P S).body ∧ NoPage (sectionToks P S).body := by
  have hfirst : firstLine Tok.ch (PyStr.strip Tok.ch S) <:+: S :=
    (firstLine_part _).trans (strip_part Tok.ch S)
  have hafter : afterLine Tok.ch (PyStr.strip Tok.ch S) <:+: S :=
    (afterLine_part _).trans (strip_part Tok.ch S)
  have hlA := hS.part hafter
  have hnA := hnS.part hafter
  have hb : Lines (some '\n') (PyStr.strip Tok.ch (if P.isEmpty then afterLine Tok.ch (PyStr.strip Tok.ch S)
      else P ++ [.newline, .newline] ++ afterLine Tok.ch (PyStr.strip Tok.ch S))) ∧
      NoPage (PyStr.strip Tok.ch (if P.isEmpty then afterLine Tok.ch (PyStr.strip Tok.ch S)
        else P ++ [.newline, .newline] ++ afterLine Tok.ch (PyStr.strip Tok.ch S))) := by
    by_cases hempty : P.isEmpty
    · rw [if_pos hempty]
      exact ⟨hlA.part (strip_part Tok.ch _), hnA.part (strip_part Tok.ch _)⟩
    · rw [if_neg hempty]
      have hl := hP.newline.blank hlA
      have hn := hnP.blank hnA
      have heq : P ++ [.newline, .newline] ++ afterLine Tok.ch (PyStr.strip Tok.ch S) =
          P ++ .newline :: .newline :: afterLine Tok.ch (PyStr.strip Tok.ch S) := by simp
      rw [heq]
      exact ⟨hl.part (strip_part Tok.ch _), hn.part (strip_part Tok.ch _)⟩
  rw [sectionToks_body]
  dsimp only
  generalize PyStr.strip Tok.ch (if P.isEmpty then afterLine Tok.ch (PyStr.strip Tok.ch S)
    else P ++ [.newline, .newline] ++ afterLine Tok.ch (PyStr.strip Tok.ch S)) = b at hb ⊢
  by_cases hempty : b.isEmpty
  · rw [if_pos hempty]
    exact ⟨hS.part hfirst, hnS.part hfirst⟩
  · rw [if_neg hempty]
    exact hb

end Tokens

/-! ### The sections of the markdown -/

section Markdown

variable {texts : List String} {isWord : Char → Bool}

/-- What a hit of an expression that begins with `^` leaves before it. -/
private theorem getLast?_take {G : List Glyph} {a b : List Char} (h : G.map Glyph.ch = a ++ b)
    (hprev : lastOr none a = none ∨ lastOr none a = some '\n') :
    G.take a.length = [] ∨ (G.take a.length).getLast?.map Glyph.ch = some '\n' := by
  have ha : (G.take a.length).map Glyph.ch = a := by rw [List.map_take, h, List.take_left]
  have hlast : (G.take a.length).getLast?.map Glyph.ch = a.getLast? := by rw [← List.getLast?_map, ha]
  have hor : lastOr none a = a.getLast? := by rw [lastOr, Option.or_none]
  rw [hor] at hprev
  rcases hprev with h | h
  · left
    rw [List.getLast?_eq_none_iff] at h
    rw [h] at ha ⊢
    exact List.take_zero
  · right
    rw [hlast, h]

/-- Where a section begins. -/
private theorem dieu_hit {h : Hit} (hh : h ∈ finditer (reDieu isWord) (chars (tokens texts))) :
    ((glyphs texts).take h.start = [] ∨ ((glyphs texts).take h.start).getLast?.map Glyph.ch = some '\n') ∧
      ∃ ws u, ((glyphs texts).drop h.start).map Glyph.ch = ws ++ 'Đ' :: u ∧ (∀ c ∈ ws, isSpace c) ∧
        ws.length < h.length := by
  obtain ⟨a, b, m, hab, hstart, hrun, hlen, -⟩ := mem_hitsFrom hh
  rw [chars, flat_tokens] at hab
  rw [Nat.zero_add] at hstart
  obtain ⟨hprev, ws, u, hb, hws, hlt⟩ := run_reDieu hrun
  rw [hstart]
  refine ⟨getLast?_take hab hprev, ws, u, ?_, hws, by rw [hlen]; exact hlt⟩
  rw [List.map_drop, hab, List.drop_left, hb]

/-- The tokens of a text that begins with `Điều` after spaces. -/
private theorem beginsDieu_of_chars {S : List Tok} {ws u : List Char} (h : chars S = ws ++ 'Đ' :: u)
    (hws : ∀ c ∈ ws, isSpace c) : BeginsDieu S := by
  have hmark : '#' ∉ ws ++ ['Đ'] := by
    rw [List.mem_append]
    rintro (hm | hm)
    · exact absurd (hws _ hm) (by decide)
    · revert hm
      decide
  obtain ⟨Y, Z, rfl, hY, -⟩ := exists_glyphs (a := ws ++ ['Đ']) (s := u) (by rw [h]; simp) hmark
  obtain ⟨W, V, rfl, hW, hV⟩ := List.map_eq_append_iff.mp hY
  obtain ⟨t, rfl, ht⟩ := List.map_eq_singleton_iff.mp hV
  cases t with
  | glyph g =>
    refine ⟨W, g, Z, by simp, ?_, ht⟩
    intro t ht
    have hmem : t.ch ∈ ws := by
      rw [← hW]
      exact List.mem_map_of_mem ht
    exact hws _ hmem
  | marker q => exact absurd (show '#' = 'Đ' from ht) (by decide)

/-- The heading of a chapter, as tokens. -/
private theorem exists_chuong (hclean : NoPage (tokens texts)) (pos : Nat) :
    ∃ C, chuongAt (chuongPositions Glyph.ch isWord (glyphs texts)) pos = flat C ∧ markers C = [] ∧
      NoPage C := by
  rw [chuongAt]
  cases hlast : ((chuongPositions Glyph.ch isWord (glyphs texts)).takeWhile fun c => c.1 ≤ pos).getLast?
    with
  | none => exact ⟨[], rfl, rfl, noPage_nil⟩
  | some c =>
    have hmem : c ∈ chuongPositions Glyph.ch isWord (glyphs texts) :=
      (List.takeWhile_prefix _).subset (List.mem_of_getLast? hlast)
    obtain ⟨h, hh, rfl⟩ := List.mem_map.mp hmem
    have hch : (glyphs texts).map Glyph.ch = chars (tokens texts) := by rw [chars, flat_tokens]
    rw [hch] at hh
    obtain ⟨a, b, m, hab, hstart, hrun, hlen, -⟩ := mem_hitsFrom hh
    rw [← hch] at hab
    rw [Nat.zero_add] at hstart
    obtain ⟨hprev, hend, x, y, hb, hx, hmark, hxlast, hy⟩ := run_reChuong hrun
    -- the tokens of the match
    have hcut := getLast?_take hab hprev
    rw [← hstart] at hcut
    have hflat : flat (tokens texts) = (glyphs texts).take h.start ++ (glyphs texts).drop h.start := by
      rw [List.take_append_drop, flat_tokens]
    obtain ⟨X₁, X₂, hX, -, hX₂⟩ := exists_split hflat (hcut.imp_right fun h => Or.inr (Or.inl h))
    have hrest : (((glyphs texts).drop h.start).drop h.length).map Glyph.ch = m.rest := by
      have hlen' : h.length = (x ++ y).length := by
        rw [hlen, hb, List.length_append]
        omega
      rw [List.map_drop, List.map_drop, hab, hstart, List.drop_left, hb, hlen', List.drop_left]
    have hmatch : (((glyphs texts).drop h.start).take h.length).map Glyph.ch = x ++ y := by
      have hlen' : h.length = (x ++ y).length := by
        rw [hlen, hb, List.length_append]
        omega
      rw [List.map_take, List.map_drop, hab, hstart, List.drop_left, hb, hlen', List.take_left]
    have hsplit : flat X₂ = ((glyphs texts).drop h.start).take h.length ++
        ((glyphs texts).drop h.start).drop h.length := by
      rw [List.take_append_drop, hX₂]
    have hcut₂ : ((glyphs texts).drop h.start).drop h.length = [] ∨
        (((glyphs texts).drop h.start).drop h.length).head?.map Glyph.ch = some '\n' := by
      rw [← List.head?_map, hrest]
      rcases hend with hend | hend
      · left
        rw [List.head?_eq_none_iff.mp hend] at hrest
        exact List.map_eq_nil_iff.mp hrest
      · exact Or.inr hend
    obtain ⟨C, X₃, rfl, hC, -⟩ := exists_split hsplit (Or.inr (hcut₂.imp_right Or.inr))
    have hin : C <:+: tokens texts := ⟨X₁, X₃, by rw [hX, List.append_assoc]⟩
    have hchars : chars C = x ++ y := by rw [chars, hC, hmatch]
    refine ⟨strip Tok.ch C, ?_, ?_, (hclean.part hin).part (strip_part Tok.ch C)⟩
    · show strip Glyph.ch (((glyphs texts).drop h.start).take h.length) = _
      rw [← hC, flat_strip]
    · rw [markers_strip]
      exact markers_of_line ((lines_tokens texts).part hin) hchars hx hmark hxlast hy

/-- A section of the markdown: `S` is its text, `T` what comes before it, and `C` the heading of its
chapter. -/
structure Placed (texts : List String) (first : Bool) (s : Section Glyph) (T S C : List Tok) : Prop where
  pre : T ++ S <+: tokens texts
  begins : BeginsDieu S
  title : s.title = flat (sectionToks (if first then strip Tok.ch T else []) S).title
  body : s.body = flat (sectionToks (if first then strip Tok.ch T else []) S).body
  chuong : s.chuong = flat C
  markers_chuong : markers C = []
  noPage_chuong : NoPage C

/-- The section that begins at a match is placed where the match is. -/
theorem placed_of_hit (hclean : NoPage (tokens texts)) {h : Hit}
    (hh : h ∈ finditer (reDieu isWord) (chars (tokens texts))) {stop : Nat} (hle : h.start + h.length ≤ stop)
    (hstop : stop = (glyphs texts).length ∨ ∃ h' ∈ finditer (reDieu isWord) (chars (tokens texts)),
      h'.start = stop) (first : Bool) :
    ∃ T S C,
      Placed texts first (sectionAt Glyph.ch Glyph.lit (chuongPositions Glyph.ch isWord (glyphs texts))
        (if first then strip Glyph.ch ((glyphs texts).take h.start) else []) (glyphs texts) h.start stop)
          T S C ∧ (chars T).length = h.start ∧ (chars (T ++ S)).length = stop := by
  have hch : (glyphs texts).map Glyph.ch = chars (tokens texts) := by rw [chars, flat_tokens]
  have hlength : (chars (tokens texts)).length = (glyphs texts).length := by rw [← hch, List.length_map]
  obtain ⟨hcut, ws, u, hu, hws, hlt⟩ := dieu_hit hh
  have hstartle : h.start ≤ stop := by omega
  have hstople : stop ≤ (glyphs texts).length := by
    rcases hstop with rfl | ⟨h', hh', rfl⟩
    · exact Nat.le_refl _
    · have hbound := (hit_bounds hh').2
      omega
  -- the text is cut where the section ends, and where it begins
  have hflat : flat (tokens texts) = (glyphs texts).take stop ++ (glyphs texts).drop stop := by
    rw [List.take_append_drop, flat_tokens]
  have hcutStop : (glyphs texts).take stop = [] ∨ (glyphs texts).drop stop = [] ∨
      ((glyphs texts).take stop).getLast?.map Glyph.ch = some '\n' ∨
      ((glyphs texts).drop stop).head?.map Glyph.ch = some '\n' := by
    rcases hstop with hstop | ⟨h', hh', hstop⟩
    · right; left
      rw [hstop, List.drop_length]
    · rw [← hstop]
      rcases (dieu_hit hh').1 with hc | hc
      · exact Or.inl hc
      · exact Or.inr (Or.inr (Or.inl hc))
  obtain ⟨U, V, hUV, hU, -⟩ := exists_split hflat hcutStop
  have hsplit : flat U = (glyphs texts).take h.start ++ ((glyphs texts).take stop).drop h.start := by
    have htake : (glyphs texts).take h.start = ((glyphs texts).take stop).take h.start := by
      rw [List.take_take, Nat.min_eq_left hstartle]
    rw [htake, List.take_append_drop, hU]
  obtain ⟨T, S, rfl, hT, hS⟩ := exists_split hsplit (hcut.imp_right fun hc => Or.inr (Or.inl hc))
  obtain ⟨C, hC, hmC, hnC⟩ := @exists_chuong texts isWord hclean h.start
  have hP : (if first then strip Glyph.ch ((glyphs texts).take h.start) else []) =
      flat (if first then strip Tok.ch T else []) := by
    cases first with
    | true => rw [if_pos rfl, if_pos rfl, ← flat_strip, hT]
    | false => rfl
  rw [hP]
  obtain ⟨htitle, hbody⟩ := @flat_section (chuongPositions Glyph.ch isWord (glyphs texts))
    (if first then strip Tok.ch T else []) S _ _ _ hS
  refine ⟨T, S, C, ⟨⟨V, hUV.symm⟩, ?_, htitle, hbody, hC, hmC, hnC⟩, ?_, ?_⟩
  · -- the text of the section begins with the match
    have hchars : chars S = ws ++ 'Đ' :: u.take (stop - h.start - ws.length - 1) := by
      rw [chars, hS, List.drop_take, List.map_take, hu]
      have hsub : stop - h.start = ws.length + (stop - h.start - ws.length - 1 + 1) := by omega
      conv_lhs => rw [hsub]
      rw [List.take_length_add_append, List.take_succ_cons]
    exact beginsDieu_of_chars hchars hws
  · rw [chars, hT, List.length_map, List.length_take]
    omega
  · rw [chars, hU, List.length_map, List.length_take]
    omega

theorem exists_placed (hclean : NoPage (tokens texts))
    (hdieu : finditer (reDieu isWord) (chars (tokens texts)) ≠ []) {before after : List (Section Glyph)}
    {s : Section Glyph} (hsec : splitByDieu Glyph.ch Glyph.lit isWord (glyphs texts) = before ++
    s :: after) : ∃ T S C, Placed texts before.isEmpty s T S C := by
  have hch : (glyphs texts).map Glyph.ch = chars (tokens texts) := by rw [chars, flat_tokens]
  have hlength : (chars (tokens texts)).length = (glyphs texts).length := by rw [← hch, List.length_map]
  rw [splitByDieu, hch] at hsec
  obtain ⟨h₀, hs, hhits⟩ := List.exists_cons_of_ne_nil hdieu
  rw [hhits] at hsec
  have hsorted := hitsFrom_sorted (reDieu isWord) 0 0 none (chars (tokens texts))
  have hbounds : ∀ h ∈ finditer (reDieu isWord) (chars (tokens texts)), h.start + h.length ≤
      (glyphs texts).length := by
    intro h hh
    rw [← hlength]
    simpa using (hit_bounds hh).2
  rw [show hitsFrom (reDieu isWord) 0 0 none (chars (tokens texts)) = h₀ :: hs from hhits] at hsorted
  rw [hhits] at hbounds
  obtain ⟨h, hh, stop, rfl, hle, hstop, hfirst⟩ := section_of_hits hsorted hbounds hsec
  rw [← hhits] at hh hstop
  obtain ⟨T, S, C, hplaced, -⟩ := placed_of_hit hclean hh hle hstop before.isEmpty
  refine ⟨T, S, C, ?_⟩
  by_cases hb : before.isEmpty
  · obtain rfl : h₀ = h := Option.some.inj (hfirst hb)
    exact hplaced
  · rw [if_neg hb] at hplaced ⊢
    exact hplaced

end Markdown

end LegalRag
