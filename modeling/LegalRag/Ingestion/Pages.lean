import LegalRag.Ingestion.Markers

/-!
# The markdown of a PDF, page by page

`glyphs texts` is the markdown that `parse_pdf` builds from the texts of the pages, every character with
the page it comes from, and `tokens texts` the same as tokens.  The markers stand on lines of their own
(`lines_tokens`), `[Page` stands in markers only (`noPage_tokens`), and every character comes from the
page of the last marker before it (`paged_tokens`).
-/

namespace LegalRag

open PyStr Regex

/-- Every character is a newline of no page or comes from the page of the last marker before it, which is
`cur` at the beginning; the markers increase. -/
def Paged : Option Nat → List Tok → Prop
  | _, [] => True
  | cur, .glyph g :: X => (g = Glyph.lit '\n' ∨ g.page.isSome ∧ g.page = cur) ∧ Paged cur X
  | cur, .marker q :: X => (∀ k ∈ cur, k < q) ∧ Paged (some q) X

/-- The page of the last marker, `cur` if there is none. -/
def pageAfter : Option Nat → List Tok → Option Nat
  | cur, [] => cur
  | cur, .glyph _ :: X => pageAfter cur X
  | _, .marker q :: X => pageAfter (some q) X

section Paged

variable {cur : Option Nat} {X Y : List Tok}

theorem paged_append : Paged cur (X ++ Y) ↔ Paged cur X ∧ Paged (pageAfter cur X) Y := by
  induction X generalizing cur with
  | nil => simp [Paged, pageAfter]
  | cons t X ih =>
    cases t with
    | glyph g => rw [List.cons_append, Paged, Paged, pageAfter, ih, and_assoc]
    | marker q => rw [List.cons_append, Paged, Paged, pageAfter, ih, and_assoc]

theorem pageAfter_of_markers (h : markers X = []) : pageAfter cur X = cur := by
  induction X generalizing cur with
  | nil => rfl
  | cons t X ih =>
    cases t with
    | glyph g => exact ih h
    | marker q => cases h

/-- A character comes from the page at the beginning or from that of a marker. -/
theorem Paged.page_of_mem (h : Paged cur X) {g : Glyph} (hg : .glyph g ∈ X) {k : Nat} (hk : g.page = some k) :
    cur = some k ∨ k ∈ markers X := by
  induction X generalizing cur with
  | nil => cases hg
  | cons t X ih =>
    cases t with
    | glyph g' =>
      rcases List.mem_cons.mp hg with heq | hmem
      · obtain rfl : g = g' := Tok.glyph.inj heq
        rcases h.1 with hlit | ⟨-, hcur⟩
        · rw [hlit] at hk
          cases hk
        · exact Or.inl (hcur.symm.trans hk)
      · exact ih h.2 hmem
    | marker q =>
      have hmem : Tok.glyph g ∈ X := by simpa using hg
      right
      rw [markers_marker, List.mem_cons]
      rcases ih h.2 hmem with heq | hin
      · exact Or.inl (Option.some.inj heq).symm
      · exact Or.inr hin

/-- The markers come after the page at the beginning. -/
theorem Paged.lt_of_mem {p : Nat} (h : Paged (some p) X) {q : Nat} (hq : q ∈ markers X) : p < q := by
  induction X generalizing p with
  | nil => cases hq
  | cons t X ih =>
    cases t with
    | glyph g => exact ih h.2 hq
    | marker q' =>
      have hlt : p < q' := h.1 p rfl
      rcases List.mem_cons.mp hq with rfl | hq
      · exact hlt
      · have hrest := ih h.2 hq
        omega

end Paged

/-! ### The pages of a PDF -/

/-- What a page contributes to the markdown, with the page that each character comes from. -/
def ParsedPage.glyphs (p : ParsedPage) : List Glyph :=
  ("## [Page " ++ toString p.pageNumber ++ "]\n\n").toList.map Glyph.lit ++ p.text.toList.map fun c =>
  ⟨c, some p.pageNumber⟩

/-- The pages that have a text. -/
def textPages (texts : List String) : List ParsedPage := (pagesFrom 0 texts).filter fun p => p.text ≠ ""

/-- The markdown of `parse_pdf`, with the page that each character comes from. -/
def glyphs (texts : List String) : List Glyph :=
  join (litText Glyph.lit "\n\n") ((textPages texts).map ParsedPage.glyphs)

def ParsedPage.tokens (p : ParsedPage) : List Tok :=
  .marker p.pageNumber :: .newline :: .newline :: p.text.toList.map fun c => .glyph ⟨c, some p.pageNumber⟩

/-- The same as tokens. -/
def tokens (texts : List String) : List Tok :=
  join [.newline, .newline] ((textPages texts).map ParsedPage.tokens)

private theorem flat_join (sep : List Tok) (ps : List (List Tok)) :
    flat (join sep ps) = join (flat sep) (ps.map flat) := by
  induction ps with
  | nil => rfl
  | cons p ps ih =>
    cases ps with
    | nil => rfl
    | cons q ps =>
      rw [join, flat_append, flat_append, ih]
      rfl

/-- Without the pages the glyphs are the markdown. -/
theorem glyphs_ch (texts : List String) : (glyphs texts).map Glyph.ch = (parsePdf texts).markdown.toList := by
  have hpart : ∀ p : ParsedPage, p.glyphs.map Glyph.ch = p.part := by
    intro p
    simp [ParsedPage.glyphs, ParsedPage.part, Glyph.lit, Function.comp_def]
  have hsep : (litText Glyph.lit "\n\n").map Glyph.ch = "\n\n".toList := rfl
  have hmd : (parsePdf texts).markdown.toList = join "\n\n".toList
    ((textPages texts).map ParsedPage.part) :=
    String.toList_ofList
  have hparts : ((textPages texts).map ParsedPage.glyphs).map (List.map Glyph.ch) =
      (textPages texts).map ParsedPage.part := by
    rw [List.map_map]
    exact List.map_congr_left fun p _ => hpart p
  rw [glyphs, map_join, hsep, hmd, hparts]

theorem flat_tokens (texts : List String) : flat (tokens texts) = glyphs texts := by
  have hpage : ∀ p : ParsedPage, flat p.tokens = p.glyphs := by
    intro p
    have htext : ∀ l : List Char, flat (l.map fun c => .glyph ⟨c, some p.pageNumber⟩) = l.map fun c =>
        ⟨c, some p.pageNumber⟩ := by
      intro l
      induction l with
      | nil => rfl
      | cons c l ih => rw [List.map_cons, flat_glyph, ih, List.map_cons]
    have hmark : ("## [Page " ++ toString p.pageNumber ++ "]\n\n").toList = markerText p.pageNumber ++
        ['\n', '\n'] := by
      simp [markerText]
    rw [ParsedPage.tokens, ParsedPage.glyphs, hmark, List.map_append, List.append_assoc, flat_marker]
    congr 1
    rw [Tok.newline, flat_glyph, flat_glyph, htext]
    rfl
  rw [tokens, flat_join, glyphs, List.map_map]
  congr 1
  exact List.map_congr_left fun p _ => hpage p

theorem chars_tokens (texts : List String) : chars (tokens texts) = (parsePdf texts).markdown.toList := by
  rw [chars, flat_tokens, glyphs_ch]

/-- The text of a page, as tokens. -/
private theorem mem_pageText {p : ParsedPage} {t : Tok}
    (h : t ∈ p.text.toList.map fun c => Tok.glyph ⟨c, some p.pageNumber⟩) : ∃ c,
    t = .glyph ⟨c, some p.pageNumber⟩ := by
  obtain ⟨c, -, rfl⟩ := List.mem_map.mp h
  exact ⟨c, rfl⟩

theorem markers_pageText (p : ParsedPage) :
    markers (p.text.toList.map fun c => Tok.glyph ⟨c, some p.pageNumber⟩) = [] := by
  refine markers_of_glyphs fun t ht => ?_
  obtain ⟨c, rfl⟩ := mem_pageText ht
  exact ⟨_, rfl⟩

private theorem ParsedPage.lines {prev : Option Char} (hprev : prev = none ∨ prev = some '\n')
    (p : ParsedPage) : Lines prev p.tokens := by
  refine ⟨hprev, ?_, lines_of_markers (markers_pageText p)⟩
  intro t ht
  obtain rfl : Tok.newline = t := Option.some.inj ht
  rfl

private theorem lines_join {prev : Option Char} (hprev : prev = none ∨ prev = some '\n')
    (ps : List ParsedPage) : Lines prev (join [.newline, .newline] (ps.map ParsedPage.tokens)) := by
  induction ps generalizing prev with
  | nil => trivial
  | cons p ps ih =>
    cases ps with
    | nil => exact p.lines hprev
    | cons q ps =>
      have h := (p.lines hprev).blank (ih (Or.inr rfl))
      simpa [join] using h

/-- The markers of the markdown stand on lines of their own. -/
theorem lines_tokens (texts : List String) : Lines none (tokens texts) := lines_join (Or.inl rfl) _

private theorem ParsedPage.noPage {p : ParsedPage} (h : ¬ pageWord <:+: p.text.toList) : NoPage p.tokens := by
  have htext : NoPage (p.text.toList.map fun c => Tok.glyph ⟨c, some p.pageNumber⟩) := by
    rw [NoPage, List.map_map]
    have hid : Tok.ch ∘ (fun c => Tok.glyph ⟨c, some p.pageNumber⟩) = id := rfl
    rw [hid, List.map_id]
    exact h
  have hafter := noPage_nil.blank htext
  exact noPage_nil.around hafter (by decide : '#' ∉ pageWord)

private theorem noPage_join {ps : List ParsedPage} (h : ∀ p ∈ ps, ¬ pageWord <:+: p.text.toList) :
    NoPage (join [.newline, .newline] (ps.map ParsedPage.tokens)) := by
  induction ps with
  | nil => exact noPage_nil
  | cons p ps ih =>
    have hp := p.noPage (h p List.mem_cons_self)
    cases ps with
    | nil => exact hp
    | cons q ps =>
      have hrest := ih fun r hr => h r (List.mem_cons_of_mem _ hr)
      have hall := hp.blank hrest
      simpa [join] using hall

theorem mem_pagesFrom {i : Nat} {texts : List String} {p : ParsedPage} (h : p ∈ pagesFrom i texts) :
    i < p.pageNumber ∧ ∃ text ∈ texts, p.text = stripText text := by
  induction texts generalizing i with
  | nil => cases h
  | cons text texts ih =>
    rcases List.mem_cons.mp h with rfl | h
    · exact ⟨Nat.lt_succ_self i, text, List.mem_cons_self, rfl⟩
    · obtain ⟨hlt, text', hmem, htext⟩ := ih h
      exact ⟨by omega, text', List.mem_cons_of_mem _ hmem, htext⟩

theorem pagesFrom_sorted (i : Nat) (texts : List String) :
    (pagesFrom i texts).Pairwise fun p q => p.pageNumber < q.pageNumber := by
  induction texts generalizing i with
  | nil => exact List.Pairwise.nil
  | cons text texts ih => exact List.Pairwise.cons (fun p hp => (mem_pagesFrom hp).1) (ih (i + 1))

/-- `[Page` stands in the markers only, if no page contains it. -/
theorem noPage_tokens {texts : List String} (h : ∀ text ∈ texts, ¬ pageWord <:+: text.toList) :
    NoPage (tokens texts) := by
  refine noPage_join fun p hp hin => ?_
  obtain ⟨-, text, hmem, htext⟩ := mem_pagesFrom (List.mem_filter.mp hp).1
  rw [htext, stripText, String.toList_ofList] at hin
  exact h text hmem (hin.trans (strip_part id _))

private theorem ParsedPage.paged {cur : Option Nat} (p : ParsedPage) (h : ∀ k ∈ cur, k < p.pageNumber) :
    Paged cur p.tokens := by
  refine ⟨h, Or.inl rfl, Or.inl rfl, ?_⟩
  generalize p.text.toList = l
  induction l with
  | nil => trivial
  | cons c l ih => exact ⟨Or.inr ⟨rfl, rfl⟩, ih⟩

private theorem ParsedPage.pageAfter_tokens (cur : Option Nat) (p : ParsedPage) :
    pageAfter cur p.tokens = some p.pageNumber :=
  pageAfter_of_markers (markers_pageText p)

private theorem paged_join {cur : Option Nat} {ps : List ParsedPage}
    (hps : ps.Pairwise fun p q => p.pageNumber < q.pageNumber) (h : ∀ p ∈ ps, ∀ k ∈ cur, k < p.pageNumber) :
    Paged cur (join [.newline, .newline] (ps.map ParsedPage.tokens)) := by
  induction ps generalizing cur with
  | nil => trivial
  | cons p ps ih =>
    have hp := p.paged (h p List.mem_cons_self)
    cases ps with
    | nil => exact hp
    | cons q ps =>
      rw [List.pairwise_cons] at hps
      have hrest := @ih (some p.pageNumber) hps.2 fun r hr k hk => by
        obtain rfl : p.pageNumber = k := Option.some.inj hk
        exact hps.1 r hr
      show Paged cur (p.tokens ++ [.newline, .newline] ++ join [.newline, .newline]
        ((q :: ps).map ParsedPage.tokens))
      rw [List.append_assoc, paged_append, p.pageAfter_tokens]
      exact ⟨hp, Or.inl rfl, Or.inl rfl, hrest⟩

/-- Every character of the markdown comes from the page of the last marker before it. -/
theorem paged_tokens (texts : List String) : Paged none (tokens texts) := by
  refine paged_join ((pagesFrom_sorted 0 texts).filter _) ?_
  rintro p - k hk
  cases hk

end LegalRag
