import LegalRag.Ingestion.Sections
import LegalRag.Ingestion.World

/-!
# The pages that a chunk cites

What is emitted for a section is a chunk of the document (`Emits.mem`).  A chunk made of a whole section
cites the pages of the markers in its text, or the page of the last marker emitted before.  The part of a
section before its first marker comes from the page on which the section begins, so that these pages are
those of its characters only in the first section and in sections without a marker (`cited_iff`).
-/

namespace LegalRag

open PyStr Regex

/-- The texts that are emitted for a section. -/
def sectionTexts (lib : ChunkerLib) (maxTokens overlapTokens : Nat) (s : Section Char) : List (List Char) :=
  let heading := s.heading id
  let text := withHeading heading s.body
  if lib.countTokens text ≤ maxTokens then [text]
  else (lib.splitText maxTokens overlapTokens s.body).map (withHeading heading)

/-- The last page that is marked in a list of texts. -/
def lastMarked (texts : List (List Char)) : Option Nat :=
  texts.foldl (fun p text => (pageRangeFor text).2.or p) none

/-- The state of the loop after some sections. -/
def stateAfter (lib : ChunkerLib) (maxTokens overlapTokens : Nat) (before : List (Section Glyph)) :
    ChunkState :=
  (before.map (Section.map Glyph.ch)).foldl (emitSection lib maxTokens overlapTokens) .start

/-- The chunk `c` is emitted for the section `s`, which fits and comes after the sections `before`. -/
structure Emits (lib : ChunkerLib) (maxTokens overlapTokens : Nat) (texts : List String)
    (before : List (Section Glyph)) (s : Section Glyph) (c : Chunk) : Prop where
  legal : isLegalDoc lib.isWord (parsePdf texts).markdown.toList
  split : ∃ after, splitByDieu Glyph.ch Glyph.lit lib.isWord (glyphs texts) = before ++ s :: after
  fits : lib.countTokens (withHeading ((s.map Glyph.ch).heading id) (s.map Glyph.ch).body) ≤ maxTokens
  chunk : (emitSection lib maxTokens overlapTokens (stateAfter lib maxTokens overlapTokens before)
    (s.map Glyph.ch)).chunks = (stateAfter lib maxTokens overlapTokens before).chunks ++ [c]

/-- Every character of the title and of the body that comes from a page comes from one that the chunk
cites. -/
def Cited (s : Section Glyph) (c : Chunk) : Prop :=
  ∀ g ∈ s.title ++ s.body, ¬ isSpace g.ch → ∀ k, g.page = some k →
    ∃ p q, c.pageFrom = some p ∧ c.pageTo = some q ∧ p ≤ k ∧ k ≤ q

/-! ### The loop -/

section Loop

variable {lib : ChunkerLib} {maxTokens overlapTokens : Nat}

private theorem emit_chunks (heading : Option String) (st : ChunkState) (text : List Char) :
    ∃ cs, (emit lib heading st text).chunks = st.chunks ++ cs := by
  unfold emit
  by_cases ht : (stripPageMarkers text).isEmpty
  · exact ⟨[], by simp [ht]⟩
  · rw [if_neg ht]
    exact ⟨_, rfl⟩

private theorem emit_lastPage (heading : Option String) (st : ChunkState) (text : List Char) :
    (emit lib heading st text).lastPage = (pageRangeFor text).2.or st.lastPage := by
  unfold emit
  cases hmax : (pageRangeFor text).2 with
  | none =>
    by_cases ht : (stripPageMarkers text).isEmpty
    · simp [ht, hmax]
    · simp [ht, hmax]
  | some p =>
    by_cases ht : (stripPageMarkers text).isEmpty
    · simp [ht, hmax]
    · simp [ht, hmax]

theorem emitSection_eq (st : ChunkState) (s : Section Char) :
    emitSection lib maxTokens overlapTokens st s =
    (sectionTexts lib maxTokens overlapTokens s).foldl (emit lib (orNone (s.heading id))) st := by
  unfold emitSection sectionTexts
  by_cases hfit : lib.countTokens (withHeading (s.heading id) s.body) ≤ maxTokens
  · simp [hfit]
  · simp [hfit]

private theorem foldl_emit (heading : Option String) (texts : List (List Char)) (st : ChunkState) :
    (texts.foldl (emit lib heading) st).lastPage =
        texts.foldl (fun p text => (pageRangeFor text).2.or p) st.lastPage ∧
      ∃ cs, (texts.foldl (emit lib heading) st).chunks = st.chunks ++ cs := by
  induction texts generalizing st with
  | nil => exact ⟨rfl, [], by simp⟩
  | cons text texts ih =>
    obtain ⟨hpage, cs, hcs⟩ := ih (emit lib heading st text)
    obtain ⟨cs', hcs'⟩ := @emit_chunks lib heading st text
    refine ⟨?_, cs' ++ cs, ?_⟩
    · rw [List.foldl_cons, hpage, emit_lastPage, List.foldl_cons]
    · rw [List.foldl_cons, hcs, hcs', List.append_assoc]

/-- `last_page` is the last page that the emitted texts mark, and no chunk is taken back. -/
private theorem foldl_emitSection (ss : List (Section Char)) (st : ChunkState) :
    (ss.foldl (emitSection lib maxTokens overlapTokens) st).lastPage =
        (ss.flatMap (sectionTexts lib maxTokens overlapTokens)).foldl
          (fun p text => (pageRangeFor text).2.or p) st.lastPage ∧
      ∃ cs, (ss.foldl (emitSection lib maxTokens overlapTokens) st).chunks = st.chunks ++ cs := by
  induction ss generalizing st with
  | nil => exact ⟨rfl, [], by simp⟩
  | cons s ss ih =>
    obtain ⟨hpage, cs, hcs⟩ := ih (emitSection lib maxTokens overlapTokens st s)
    rw [emitSection_eq] at hpage hcs
    obtain ⟨hpage', cs', hcs'⟩ := @foldl_emit lib (orNone (s.heading id))
      (sectionTexts lib maxTokens overlapTokens s) st
    refine ⟨?_, cs' ++ cs, ?_⟩
    · rw [List.foldl_cons, emitSection_eq, hpage, hpage', List.flatMap_cons, List.foldl_append]
    · rw [List.foldl_cons, emitSection_eq, hcs, hcs', List.append_assoc]

private theorem stateAfter_lastPage (before : List (Section Glyph)) :
    (stateAfter lib maxTokens overlapTokens before).lastPage =
    lastMarked ((before.map (Section.map Glyph.ch)).flatMap (sectionTexts lib maxTokens overlapTokens)) :=
  (foldl_emitSection _ _).1

/-- The sections of the markdown are those of its glyphs. -/
theorem splitByDieu_markdown (isWord : Char → Bool) (texts : List String) :
    splitByDieu id id isWord (parsePdf texts).markdown.toList =
      (splitByDieu Glyph.ch Glyph.lit isWord (glyphs texts)).map (Section.map Glyph.ch) := by
  rw [← glyphs_ch]
  exact @splitByDieu_map Glyph Char Glyph.ch Glyph.lit id id Glyph.ch (fun _ => rfl) (fun _ => rfl) isWord
    (glyphs texts)

/-- A legal text has a match of `_RE_DIEU`. -/
theorem dieu_of_legal {isWord : Char → Bool} {texts : List String}
    (h : isLegalDoc isWord (parsePdf texts).markdown.toList) :
    finditer (reDieu isWord) (chars (tokens texts)) ≠ [] := by
  rw [← chars_tokens, isLegalDoc, Bool.and_eq_true, decide_eq_true_eq] at h
  intro hnil
  rw [hnil] at h
  exact absurd h.1 (by decide)

/-- What is emitted is a chunk of the document. -/
theorem Emits.mem {texts : List String} {before : List (Section Glyph)} {s : Section Glyph} {c : Chunk}
    (h : Emits lib maxTokens overlapTokens texts before s c) :
    c ∈ chunkDocument lib maxTokens overlapTokens (parsePdf texts) := by
  obtain ⟨after, hsplit⟩ := h.split
  have hsections : splitByDieu id id lib.isWord (parsePdf texts).markdown.toList =
      (before ++ s :: after).map (Section.map Glyph.ch) := by
    rw [← hsplit, splitByDieu_markdown]
  have hmore : ∀ st : ChunkState, ∃ cs, ((after.map (Section.map Glyph.ch)).foldl
      (emitSection lib maxTokens overlapTokens) st).chunks = st.chunks ++ cs := fun st =>
      (foldl_emitSection _ st).2
  obtain ⟨cs, hcs⟩ :=
    hmore (emitSection lib maxTokens overlapTokens (stateAfter lib maxTokens overlapTokens before)
    (s.map Glyph.ch))
  rw [chunkDocument, if_pos h.legal, hsections, List.map_append, List.map_cons, List.foldl_append,
    List.foldl_cons, ← stateAfter, hcs, h.chunk]
  simp

/-- The pages of the chunk of a section that fits. -/
private theorem Emits.pages {texts : List String} {before : List (Section Glyph)} {s : Section Glyph}
    {c : Chunk} (h : Emits lib maxTokens overlapTokens texts before s c) :
    let range := pageRangeFor (withHeading ((s.map Glyph.ch).heading id) (s.map Glyph.ch).body)
    let last :=
      lastMarked ((before.map (Section.map Glyph.ch)).flatMap (sectionTexts lib maxTokens overlapTokens))
    (c.pageFrom, c.pageTo) = if range.2.isSome then range else (last, last) := by
  intro range last
  have hlast : last = (stateAfter lib maxTokens overlapTokens before).lastPage :=
    (stateAfter_lastPage before).symm
  have hchunk := h.chunk
  rw [emitSection, if_pos h.fits, emit] at hchunk
  rw [hlast]
  by_cases ht : (stripPageMarkers (withHeading ((s.map Glyph.ch).heading id) (s.map Glyph.ch).body)).isEmpty
  · rw [if_pos ht] at hchunk
    exact absurd (List.self_eq_append_right.mp hchunk) (by simp)
  · rw [if_neg ht] at hchunk
    have hc := List.append_cancel_left hchunk
    rw [List.cons.injEq] at hc
    rw [← hc.1]

end Loop

/-! ### The markers of a section -/

/-- The heading of a section, as tokens. -/
def headingToks (C L : List Tok) : List Tok :=
  if C.isEmpty then L else C ++ Tok.lit ' ' :: Tok.lit '>' :: Tok.lit ' ' :: L

private theorem heading_chars {s : Section Glyph} {C L : List Tok} (hC : s.chuong = flat C)
    (hL : s.title = flat L) (hne : L ≠ []) : (s.map Glyph.ch).heading id = chars (headingToks C L) := by
  have hLe : ((flat L).map Glyph.ch).isEmpty = false := by
    rw [List.isEmpty_map, flat_isEmpty]
    exact List.isEmpty_eq_false_iff.mpr hne
  have hCe : ((flat C).map Glyph.ch).isEmpty = C.isEmpty := by rw [List.isEmpty_map, flat_isEmpty]
  have hfilter : [(flat C).map Glyph.ch, (flat L).map Glyph.ch].filter (fun p => ¬ p.isEmpty) =
      if C.isEmpty then [(flat L).map Glyph.ch] else [(flat C).map Glyph.ch, (flat L).map Glyph.ch] := by
    rw [List.filter_cons, List.filter_cons, List.filter_nil, hLe, hCe]
    cases C.isEmpty <;> rfl
  rw [Section.heading, Section.map, hC, hL, headingToks, hfilter]
  by_cases hc : C.isEmpty
  · rw [if_pos hc, if_pos hc]
    rfl
  · rw [if_neg hc, if_neg hc, chars_append]
    show (flat C).map Glyph.ch ++ [' ', '>', ' '] ++ (flat L).map Glyph.ch = _
    rw [List.append_assoc]
    rfl

private theorem headingToks_clean {C L : List Tok} (hmC : markers C = []) (hmL : markers L = [])
    (hnC : NoPage C) (hnL : NoPage L) : markers (headingToks C L) = [] ∧ NoPage (headingToks C L) := by
  unfold headingToks
  by_cases hc : C.isEmpty
  · rw [if_pos hc]
    exact ⟨hmL, hnL⟩
  · rw [if_neg hc]
    have hrest : NoPage (Tok.lit '>' :: Tok.lit ' ' :: L) :=
      noPage_nil.around (noPage_nil.around hnL (by decide)) (by decide)
    refine ⟨?_, hnC.around hrest (by decide)⟩
    rw [markers_append, hmC]
    exact hmL

private theorem Placed.title_ne {texts : List String} {first : Bool} {s : Section Glyph} {T S C : List Tok}
    (h : Placed texts first s T S C) : (sectionToks (if first then strip Tok.ch T else []) S).title ≠ [] := by
  obtain ⟨W, g, Z, L, -, -, htitle, -, -⟩ := h.begins.title (if first then strip Tok.ch T else [])
  rw [htitle]
  exact List.cons_ne_nil _ _

section Placed

variable {texts : List String} {first : Bool} {s : Section Glyph} {T S C : List Tok}

private theorem Placed.infix (h : Placed texts first s T S C) : T <:+: tokens texts ∧ S <:+: tokens texts :=
  ⟨(List.prefix_append T S).isInfix.trans h.pre.isInfix, (List.suffix_append T S).isInfix.trans h.pre.isInfix⟩

/-- The heading of a section as tokens: it has no marker, and its last line contains `Đ`. -/
theorem Placed.heading (h : Placed texts first s T S C) (hclean : NoPage (tokens texts)) :
    ∃ H, (s.map Glyph.ch).heading id = chars H ∧ markers H = [] ∧ NoPage H ∧
      ∃ A L, chars H = A ++ 'Đ' :: L ∧ '\n' ∉ L := by
  obtain ⟨-, hS⟩ := h.infix
  have hlS := (lines_tokens texts).part hS
  have hnS := hclean.part hS
  obtain ⟨P, hP⟩ : ∃ P, P = if first then strip Tok.ch T else [] := ⟨_, rfl⟩
  have htitle := h.title
  have hne := h.title_ne
  rw [← hP] at htitle hne
  have htin : (sectionToks P S).title <:+: S := by
    rw [sectionToks_title]
    exact (strip_part Tok.ch _).trans ((firstLine_part _).trans (strip_part Tok.ch S))
  obtain ⟨hmH, hnH⟩ :=
    headingToks_clean h.markers_chuong (markers_title hlS h.begins) h.noPage_chuong (hnS.part htin)
  refine ⟨_, heading_chars h.chuong htitle hne, hmH, hnH, ?_⟩
  obtain ⟨L, hline, hno⟩ := h.begins.title_chars P
  unfold headingToks
  by_cases hc : C.isEmpty
  · rw [if_pos hc]
    exact ⟨[], L, hline, hno⟩
  · rw [if_neg hc]
    refine ⟨chars C ++ [' ', '>', ' '], L, ?_, hno⟩
    simp only [chars_append, Tok.lit, chars_glyph, hline]
    simp [Glyph.lit]

/-- The body of a section as tokens. -/
theorem Placed.bodyToks (h : Placed texts first s T S C) (hclean : NoPage (tokens texts)) :
    ∃ B, (s.map Glyph.ch).body = chars B ∧ Lines (some '\n') B ∧ NoPage B ∧
      markers B = markers (if first then T else []) ++ markers S := by
  obtain ⟨hT, hS⟩ := h.infix
  have hlS := (lines_tokens texts).part hS
  have hnS := hclean.part hS
  obtain ⟨P, hP⟩ : ∃ P, P = if first then strip Tok.ch T else [] := ⟨_, rfl⟩
  have hPclean : Lines (some '\n') P ∧ NoPage P ∧ markers P = markers (if first then T else []) := by
    cases first with
    | false =>
      obtain rfl : P = [] := hP
      exact ⟨trivial, noPage_nil, rfl⟩
    | true =>
      have hin : strip Tok.ch T <:+: tokens texts := (strip_part Tok.ch T).trans hT
      obtain rfl : P = strip Tok.ch T := hP
      exact ⟨(lines_tokens texts).part hin, hclean.part hin, markers_strip T⟩
  have hbody := h.body
  rw [← hP] at hbody
  obtain ⟨hlB, hnB⟩ := body_clean hPclean.1 hlS hPclean.2.1 hnS
  refine ⟨(sectionToks P S).body, ?_, hlB, hnB, ?_⟩
  · rw [Section.map, hbody]
    rfl
  · rw [markers_body hlS h.begins, hPclean.2.2]

/-- The pages that are found in the text of a section. -/
private theorem Placed.pagesIn (h : Placed texts first s T S C) (hclean : NoPage (tokens texts)) :
    pagesIn (withHeading ((s.map Glyph.ch).heading id) (s.map Glyph.ch).body) =
      markers (if first then T else []) ++ markers S := by
  obtain ⟨H, hH, hmH, hnH, A, L, hline, -⟩ := h.heading hclean
  obtain ⟨B, hB, hlB, hnB, hmB⟩ := h.bodyToks hclean
  have hne : ¬ (chars H).isEmpty := by
    rw [hline]
    simp
  have htext : withHeading (chars H) (chars B) = chars (H ++ .newline :: .newline :: B) := by
    rw [withHeading, if_neg hne, chars_append]
    simp [Tok.newline, Glyph.lit]
  rw [hH, hB, htext, pagesIn_chars ((lines_of_markers hmH).blank hlB) ((hnH.blank hnB).unmatched.noHit none),
    markers_append, hmH, List.nil_append, ← hmB]
  rfl

end Placed

/-! ### The pages of the characters -/

private theorem mem_flat {X : List Tok} {g : Glyph} (h : g ∈ flat X) {k : Nat} (hk : g.page = some k) :
    .glyph g ∈ X := by
  obtain ⟨t, ht, hg⟩ := List.mem_flatMap.mp h
  cases t with
  | glyph g' =>
    obtain rfl : g = g' := by simpa [Tok.flat] using hg
    exact ht
  | marker q =>
    obtain ⟨c, -, rfl⟩ := List.mem_map.mp hg
    cases hk

section Placed

variable {texts : List String} {first : Bool} {s : Section Glyph} {T S C : List Tok}

private theorem Placed.paged (h : Placed texts first s T S C) : Paged none (T ++ S) := by
  obtain ⟨R, hR⟩ := h.pre
  have hall := paged_tokens texts
  rw [← hR, paged_append] at hall
  exact hall.1

/-- The title begins on the page that is current where the section begins. -/
private theorem Placed.head (h : Placed texts first s T S C) :
    ∃ g rest k, s.title = g :: rest ∧ g.ch = 'Đ' ∧ g.page = some k ∧ pageAfter none T = some k := by
  obtain ⟨W, g, Z, L, hS, hW, htitle, hg, -⟩ := h.begins.title (if first then strip Tok.ch T else [])
  have hmW : markers W = [] := by
    refine markers_of_glyphs fun t ht => ?_
    cases t with
    | glyph g => exact ⟨g, rfl⟩
    | marker q => exact absurd (hW _ ht) (by simp [Tok.ch, isSpace])
  have hpage := (paged_append.mp h.paged).2
  rw [hS, paged_append, pageAfter_of_markers hmW] at hpage
  rcases hpage.2.1 with hlit | ⟨hsome, hcur⟩
  · rw [hlit] at hg
    exact absurd hg (by decide)
  · obtain ⟨k, hk⟩ := Option.isSome_iff_exists.mp hsome
    exact ⟨g, flat L, k, by rw [h.title, htitle, flat_glyph], hg, hk, by rw [← hcur, hk]⟩

/-- The page of a character of a section is current where the section begins, or is marked in it. -/
private theorem Placed.page_of_mem (h : Placed texts first s T S C) {g : Glyph}
    (hg : g ∈ s.title ++ s.body) {k : Nat} (hk : g.page = some k) :
    (first = false ∧ pageAfter none T = some k) ∨ k ∈ markers (if first then T else []) ++ markers S := by
  have hmem : .glyph g ∈ (if first then strip Tok.ch T else []) ∨ .glyph g ∈ S := by
    rw [h.title, h.body, ← flat_append] at hg
    rcases mem_section (mem_flat hg hk) with ht | ht | ht
    · exact Or.inl ht
    · exact Or.inr ht
    · obtain rfl : g = Glyph.lit '\n' := Tok.glyph.inj ht
      cases hk
  cases first with
  | true =>
    -- the preamble and the section together begin where the document begins
    right
    have hin : .glyph g ∈ T ++ S := by
      rw [List.mem_append]
      exact hmem.imp_left fun ht => (strip_part Tok.ch T).subset ht
    rcases h.paged.page_of_mem hin hk with hnone | hmark
    · cases hnone
    · rwa [markers_append] at hmark
  | false =>
    have hin : .glyph g ∈ S := hmem.resolve_left (List.not_mem_nil)
    rcases (paged_append.mp h.paged).2.page_of_mem hin hk with hcur | hmark
    · exact Or.inl ⟨rfl, hcur⟩
    · exact Or.inr hmark

end Placed

private theorem min?_le_max? {l : List Nat} {k : Nat} (hk : k ∈ l) :
    ∃ p q, l.min? = some p ∧ l.max? = some q ∧ p ≤ k ∧ k ≤ q := by
  have hne := List.ne_nil_of_mem hk
  obtain ⟨p, hp⟩ := Option.ne_none_iff_exists'.mp (fun h => hne (List.min?_eq_none_iff.mp h))
  obtain ⟨q, hq⟩ := Option.ne_none_iff_exists'.mp (fun h => hne (List.max?_eq_none_iff.mp h))
  exact ⟨p, q, hp, hq, (List.min?_eq_some_iff.mp hp).2 k hk, (List.max?_eq_some_iff.mp hq).2 k hk⟩

/-- What a chunk made of a whole section cites is right when the section is the first one, or when no
marker is in its text and the one emitted last is that of the page on which its title begins; and only
then. -/
theorem cited_iff {lib : ChunkerLib} {maxTokens overlapTokens : Nat} {texts : List String}
    (hclean : ∀ text ∈ texts, ¬ pageWord <:+: text.toList) {before : List (Section Glyph)}
    {s : Section Glyph} {c : Chunk} (h : Emits lib maxTokens overlapTokens texts before s c) :
    Cited s c ↔ before = [] ∨
      (pageRangeFor (withHeading ((s.map Glyph.ch).heading id) (s.map Glyph.ch).body)).2 = none ∧
        lastMarked ((before.map (Section.map Glyph.ch)).flatMap (sectionTexts lib maxTokens overlapTokens)) =
          s.title.head?.bind Glyph.page := by
  have hclean := noPage_tokens hclean
  have hdieu := dieu_of_legal h.legal
  obtain ⟨after, hsplit⟩ := h.split
  obtain ⟨T, S, C, hplaced⟩ := exists_placed hclean hdieu hsplit
  have hfound := hplaced.pagesIn hclean
  have hpages := h.pages
  dsimp only at hpages
  generalize withHeading ((s.map Glyph.ch).heading id) (s.map Glyph.ch).body = text at hfound hpages ⊢
  generalize lastMarked ((before.map (Section.map Glyph.ch)).flatMap
    (sectionTexts lib maxTokens overlapTokens)) = last at hpages ⊢
  rw [pageRangeFor_eq, hfound] at hpages ⊢
  -- a page that is marked in the text is cited
  have hmarked : ∀ k ∈ markers (if before.isEmpty then T else []) ++ markers S,
      ∃ p q, c.pageFrom = some p ∧ c.pageTo = some q ∧ p ≤ k ∧ k ≤ q := by
    intro k hk
    obtain ⟨p, q, hp, hq, hpk, hkq⟩ := min?_le_max? hk
    rw [hp, hq, if_pos (by rfl), Prod.mk.injEq] at hpages
    exact ⟨p, q, hpages.1, hpages.2, hpk, hkq⟩
  by_cases hb : before = []
  · refine iff_of_true ?_ (Or.inl hb)
    intro g hg _ k hk
    rcases hplaced.page_of_mem hg hk with ⟨hfalse, -⟩ | hk
    · rw [hb] at hfalse
      cases hfalse
    · exact hmarked k hk
  · have hnot : before.isEmpty = false := List.isEmpty_eq_false_iff.mpr hb
    rw [hnot] at hplaced hmarked hpages ⊢
    obtain ⟨g, rest, k, htitle, hg, hgk, hcur⟩ := hplaced.head
    rw [htitle, List.head?_cons, Option.bind_some, hgk]
    constructor
    · intro hcited
      right
      obtain ⟨p, q, hp, hq, hpk, hkq⟩ := hcited g (by simp [htitle]) (by rw [hg]; decide) k hgk
      cases hmax : (markers (if false then T else []) ++ markers S).max? with
      | some m =>
        -- the first marker in the section comes after the character with which the title begins
        rw [hmax, if_pos (by rfl), hp, Prod.mk.injEq] at hpages
        have hpS : p ∈ markers S := List.min?_mem hpages.1.symm
        have hsorted := (paged_append.mp hplaced.paged).2
        rw [hcur] at hsorted
        have hlt := hsorted.lt_of_mem hpS
        omega
      | none =>
        rw [hmax, if_neg (by simp), hp, hq, Prod.mk.injEq] at hpages
        have hpq : p = q := Option.some.inj (hpages.1.trans hpages.2.symm)
        have hpk : p = k := by omega
        exact ⟨rfl, by rw [← hpages.1, hpk]⟩
    · rintro (hb' | ⟨hnone, hlast⟩)
      · exact absurd hb' hb
      · intro g' hg' _ k' hk'
        rcases hplaced.page_of_mem hg' hk' with ⟨-, hcur'⟩ | hk'
        · rw [hnone, if_neg (by simp), Prod.mk.injEq, hlast] at hpages
          obtain rfl : k = k' := Option.some.inj (hcur.symm.trans hcur')
          exact ⟨k, k, hpages.1, hpages.2, le_refl k, le_refl k⟩
        · exact hmarked k' hk'

/-- Two pages, of which the second one begins within a section. -/
def twoPages : List String := ["Chương I\n\nĐiều 1. a\nĐiều 2. b", "c\nĐiều 3. d"]

private theorem twoPages_clean : ∀ text ∈ twoPages, ¬ pageWord <:+: text.toList := by decide

/-- Their sections. -/
def twoPagesSections : List (Section Glyph) :=
  splitByDieu Glyph.ch Glyph.lit plainChunker.isWord (glyphs twoPages)

/-- The section that goes over the page break. -/
def brokenSection : Section Glyph := twoPagesSections.getD 1 ⟨[], [], []⟩

def brokenChunk : Chunk :=
  ⟨1, "Chương I > Điều 2. b\n\n\nc", 24, some "Chương I > Điều 2. b", some 2, some 2⟩

private theorem emits_brokenChunk :
    Emits plainChunker 100 10 twoPages (twoPagesSections.take 1) brokenSection brokenChunk where
  legal := by decide
  split := ⟨twoPagesSections.drop 2, by decide⟩
  fits := by decide
  chunk := by decide

theorem not_cited :
    ¬ ∀ (lib : ChunkerLib) (maxTokens overlapTokens : Nat) (texts : List String),
      (∀ text ∈ texts, ¬ pageWord <:+: text.toList) →
      ∀ (before : List (Section Glyph)) (s : Section Glyph) (c : Chunk),
        Emits lib maxTokens overlapTokens texts before s c → Cited s c := by
  intro h
  have hcited := h plainChunker 100 10 twoPages twoPages_clean _ _ _ emits_brokenChunk
  obtain ⟨p, q, hp, -, hle, -⟩ := hcited ⟨'Đ', some 1⟩ (by decide) (by decide) 1 rfl
  obtain rfl : 2 = p := Option.some.inj hp
  exact absurd hle (by decide)

theorem cited_iff_broken : ¬ Cited brokenSection brokenChunk := by
  have hiff := cited_iff twoPages_clean emits_brokenChunk
  rw [hiff]
  decide

end LegalRag
