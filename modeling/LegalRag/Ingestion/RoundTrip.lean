import LegalRag.Ingestion.Pages

/-!
# The markdown of a PDF, read back

Cutting the markdown at the matches of `_RE_PAGE` gives back the pages that have a text, provided that no
match is in the stripped text of a page (`cut_markdown`).  A marker is not formed across two pages, as a
match has no `#` after its first two characters and ends with `]` and spaces (`pageLine_of_blank`).  The
spaces that `strip` takes away may be what keeps a line of a page from being read as a marker
(`indented_not_kept`).
-/

namespace LegalRag

open PyStr Regex

/-! ### A match before a blank line -/

/-- In what is matched, up to the closing bracket, there is no `#` after the first two characters. -/
private theorem PageLine.bracket {s : List Char} (h : PageLine s) : ∃ u e rest,
    s = ['#', '#'] ++ u ++ [']'] ++ (e ++ rest) ∧ '#' ∉ u ∧ (∀ c ∈ e, isSpace c) ∧
      (rest.head? = none ∨ rest.head? = some '\n') ∧
      ∀ e' rest', (∀ c ∈ e', isSpace c) → (rest'.head? = none ∨ rest'.head? = some '\n') →
        PageLine (['#', '#'] ++ u ++ [']'] ++ (e' ++ rest')) := by
  obtain ⟨a, b, d, e, rest, rfl, ha, hb, hd, he, hend⟩ := h
  refine ⟨a ++ (pageWord ++ (b ++ d)), e, rest, by simp, ?_, he, hend, ?_⟩
  · simp only [List.mem_append, not_or]
    refine ⟨fun hm => ?_, by decide, fun hm => ?_, fun hm => ?_⟩
    · exact absurd (ha.2 _ hm) (by decide)
    · exact absurd (hb.2 _ hm) (by decide)
    · exact absurd (hd.2 _ hm) (by decide)
  · intro e' rest' he' hend'
    exact ⟨a, b, d, e', rest', by simp, ha, hb, hd, he', hend'⟩

/-- What is matched in a text before a blank line and a marker is matched in the text alone. -/
theorem pageLine_of_blank {t s : List Char} (hne : t ≠ []) (h : PageLine (t ++ '\n' :: '\n' :: '#' :: s)) :
    PageLine t := by
  obtain ⟨u, e, rest, heq, hu, he, hend, hother⟩ := h.bracket
  rcases List.append_eq_append_iff.mp heq with ⟨w, hbracket, hw⟩ | ⟨w, rfl, hw⟩
  · have hlast : ∀ c ∈ w.getLast?, c = ']' := by
      intro c hc
      have hlast := congrArg List.getLast? hbracket
      rw [List.getLast?_append_of_ne_nil t (by rintro rfl; cases hc), hc, List.getLast?_concat] at hlast
      exact (Option.some.inj hlast).symm
    -- otherwise the bracket is one of the newlines, or comes after another `#`
    rcases w with _ | ⟨c, _ | ⟨c', _ | ⟨c'', w⟩⟩⟩
    · have halone := hother [] [] (by simp) (Or.inl rfl)
      rwa [List.append_nil, List.append_nil, hbracket, List.append_nil] at halone
    · have hc : c = '\n' := (List.cons.inj hw).1.symm
      rw [hc] at hlast
      exact absurd (hlast '\n' rfl) (by decide)
    · have hc : c' = '\n' := (List.cons.inj (List.cons.inj hw).2).1.symm
      rw [hc] at hlast
      exact absurd (hlast '\n' rfl) (by decide)
    · simp only [List.cons_append, List.cons.injEq] at hw
      obtain ⟨rfl, rfl, rfl, -⟩ := hw
      rcases t with _ | ⟨d, _ | ⟨d', t⟩⟩
      · exact absurd rfl hne
      · simp at hbracket
      · simp only [List.cons_append, List.nil_append, List.cons.injEq] at hbracket
        have hmem : '#' ∈ u ++ [']'] := by
          rw [hbracket.2.2]
          simp
        exact absurd hmem (by simpa using hu)
  · rcases List.append_eq_append_iff.mp hw with ⟨rest', rfl, hrest⟩ | ⟨e', rfl, -⟩
    · -- the spaces end within the text
      refine hother e rest' he ?_
      rw [hrest] at hend
      cases rest' with
      | nil => exact Or.inl rfl
      | cons c rest' => exact hend
    · have hspaces := hother w [] (fun c hc => he c (List.mem_append_left _ hc)) (Or.inl rfl)
      rwa [List.append_nil] at hspaces

/-! ### The pages -/

/-- Nothing, or a blank line and the next page. -/
def Seam (X : List Tok) : Prop := X = [] ∨ ∃ q Y, X = .newline :: .newline :: .marker q :: Y

/-- No match begins in the text of a page, if nothing is found in this text, whatever stands after the
seam. -/
private theorem noHit_page {p : ParsedPage} (h : finditer rePage p.text.toList = []) {X : List Tok}
    (hX : Seam X) (hrest : NoHit (lastOr (some '\n') p.text.toList) X) (prev : Option Char) :
    NoHit prev (p.tokens ++ X) := by
  have htext : NoHit (some '\n') (charToks (some p.pageNumber) p.text.toList ++ X) := by
    have hchars : chars (charToks (some p.pageNumber) p.text.toList) = p.text.toList := chars_charToks _ _
    refine noHit_glyphs (markers_charToks _ _) ?_ (by rwa [hchars])
    intro a b hab hb
    rw [hchars] at hab
    have halone : run rePage (lastOr none a) b = none := run_of_no_hits a (hab ▸ h) hb
    by_contra hne
    obtain ⟨hstart, hmatch⟩ := run_rePage_isSome.mp (Option.isSome_iff_ne_none.mpr hne)
    have hmatch : PageLine b := by
      rcases hX with rfl | ⟨q, Y, rfl⟩
      · rwa [chars_nil, List.append_nil] at hmatch
      · exact pageLine_of_blank hb hmatch
    -- the text of a page begins a line in the markdown as it does alone
    have hstart : lastOr none a = none ∨ lastOr none a = some '\n' := by
      cases a with
      | nil => exact Or.inl rfl
      | cons c a => rwa [lastOr_cons] at hstart ⊢
    exact absurd halone (Option.isSome_iff_ne_none.mp (run_rePage_isSome.mpr ⟨hstart, hmatch⟩))
  exact ⟨run_newline _ _, run_newline _ _, htext⟩

private theorem segments_page (p : ParsedPage) {X : List Tok} (hX : Seam X) :
    segments (p.tokens ++ X) = (p.pageNumber, strip id p.text.toList) :: segments X := by
  obtain ⟨Y, hY⟩ : ∃ Y, Y = charToks (some p.pageNumber) p.text.toList ++ X := ⟨_, rfl⟩
  have htokens : p.tokens ++ X = .marker p.pageNumber :: .newline :: .newline :: Y := by
    rw [hY]
    rfl
  have hbefore : ∀ c ∈ chars (beforeMarker X), isSpace (id c) := by
    rcases hX with rfl | ⟨q, Z, rfl⟩
    · simp [beforeMarker]
    · intro c hc
      obtain rfl : c = '\n' := by simpa [beforeMarker, Tok.newline, Glyph.lit] using hc
      rfl
  have hchars : chars (beforeMarker (.newline :: .newline :: Y)) =
      ['\n', '\n'] ++ p.text.toList ++ chars (beforeMarker X) := by
    rw [hY]
    simp [beforeMarker, Tok.newline, Glyph.lit, beforeMarker_charToks]
  have hsegments : segments (.newline :: .newline :: Y) = segments X := by
    rw [hY]
    exact segments_charToks _ _ _
  have hblank : ∀ c ∈ ['\n', '\n'], isSpace (id c) := List.all_eq_true.mp rfl
  rw [htokens, segments, hchars, hsegments, strip_pad hblank hbefore]

/-- The markdown of pages without a marker in their texts. -/
private theorem join_pages {ps : List ParsedPage} (h : ∀ p ∈ ps, finditer rePage p.text.toList = [])
    (prev : Option Char) :
    NoHit prev (join [.newline, .newline] (ps.map ParsedPage.tokens)) ∧
    segments (join [.newline, .newline] (ps.map ParsedPage.tokens)) =
      ps.map fun p => (p.pageNumber, strip id p.text.toList) := by
  induction ps generalizing prev with
  | nil => exact ⟨trivial, rfl⟩
  | cons p ps ih =>
    have hp := h p List.mem_cons_self
    cases ps with
    | nil =>
      have hseam : Seam [] := Or.inl rfl
      have hno := noHit_page hp hseam trivial prev
      have hsegments := segments_page p hseam
      rw [List.append_nil] at hno hsegments
      exact ⟨hno, hsegments⟩
    | cons q ps =>
      obtain ⟨X, hX⟩ : ∃ X, X = join [.newline, .newline] ((q :: ps).map ParsedPage.tokens) := ⟨_, rfl⟩
      have hjoin : join [.newline, .newline] ((p :: q :: ps).map ParsedPage.tokens) =
          p.tokens ++ .newline :: .newline :: X := by
        rw [hX]
        exact List.append_assoc ..
      have hseam : Seam (.newline :: .newline :: X) := by
        refine Or.inr ⟨q.pageNumber, X.tail, ?_⟩
        rw [hX]
        cases ps <;> rfl
      have hrest := fun prev => ih (fun r hr => h r (List.mem_cons_of_mem _ hr)) prev
      rw [← hX] at hrest
      rw [hjoin]
      constructor
      · exact noHit_page hp hseam ⟨run_newline _ _, run_newline _ _, (hrest _).1⟩ prev
      · rw [segments_page p hseam, List.map_cons]
        exact congrArg (_ :: ·) (hrest none).2

/-- Cutting the markdown at the matches of `_RE_PAGE` gives back the numbers and the texts of the pages
that have a text, if no match is in one of these texts. -/
theorem cut_markdown {texts : List String}
    (h : ∀ text ∈ texts, finditer rePage (stripText text).toList = []) :
    (cutAll rePage (parsePdf texts).markdown.toList).1 = [] ∧
    (cutAll rePage (parsePdf texts).markdown.toList).2.map (fun p => (int p.1, strip id p.2)) =
      ((parsePdf texts).pages.filter fun p => p.text ≠ "").map fun p =>
      (p.pageNumber, p.text.toList) := by
  have hpages : ∀ p ∈ textPages texts, finditer rePage p.text.toList = [] := by
    intro p hp
    obtain ⟨-, text, htext, heq⟩ := mem_pagesFrom (List.mem_filter.mp hp).1
    rw [heq]
    exact h text htext
  have hbegin : beforeMarker (tokens texts) = [] := by
    rw [tokens]
    rcases textPages texts with _ | ⟨p, _ | ⟨q, ps⟩⟩ <;> rfl
  obtain ⟨hno, hsegments⟩ := join_pages hpages none
  obtain ⟨hfirst, hrest⟩ := cutFrom_chars (lines_tokens texts) hno (Nat.zero_le _)
  rw [← chars_tokens, cutAll]
  constructor
  · rw [hfirst, hbegin]
    rfl
  · rw [hrest, tokens, hsegments, textPages]
    refine List.map_congr_left fun p hp => ?_
    obtain ⟨-, text, -, htext⟩ := mem_pagesFrom (List.mem_filter.mp hp).1
    rw [htext, stripText, String.toList_ofList, strip_strip]

/-- A page that is read as two: without the space at its beginning its first line is a marker. -/
theorem indented_not_kept :
    ¬ ∀ texts : List String, (∀ text ∈ texts, finditer rePage text.toList = []) →
      (cutAll rePage (parsePdf texts).markdown.toList).1 = [] ∧
      (cutAll rePage (parsePdf texts).markdown.toList).2.map (fun p => (int p.1, strip id p.2)) =
        ((parsePdf texts).pages.filter fun p => p.text ≠ "").map fun p =>
        (p.pageNumber, p.text.toList) := by
  intro h
  have hclean : ∀ text ∈ [" ## [Page 9]\nabc"], finditer rePage text.toList = [] := by
    intro text htext
    rw [List.mem_singleton.mp htext]
    decide
  have hlength := congrArg List.length (h _ hclean).2
  revert hlength
  decide

/-- Two pages, with an empty one between them, which end and begin with parts of a marker. -/
def brokenMarkers : List String := ["Điều 1\n## [Page", " ", "9]\n##"]

theorem cut_markdown_brokenMarkers :
    (cutAll rePage (parsePdf brokenMarkers).markdown.toList).1 = [] ∧
    (cutAll rePage (parsePdf brokenMarkers).markdown.toList).2.map (fun p => (int p.1, strip id p.2)) =
      ((parsePdf brokenMarkers).pages.filter fun p => p.text ≠ "").map fun p =>
        (p.pageNumber, p.text.toList) :=
  cut_markdown (List.forall_mem_cons.mpr ⟨by decide, List.forall_mem_cons.mpr ⟨by decide,
    List.forall_mem_singleton.mpr (by decide)⟩⟩)

end LegalRag
