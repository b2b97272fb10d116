import LegalRag.Ingestion.Cuts
import LegalRag.Ingestion.Emitted
import LegalRag.Lists.Windows

/-!
# The pages of the chunks move forward

If the splitter returns windows of its text that move forward (`SplitsForward`), then the pages of the
markers in the emitted texts are windows of all pages that move forward (`emitted_windows`), over the
pieces of a section, with the heading or without, and from one section to the next.  So the pages of the
chunks never go back, and no chunk is without a page after one that has a page (`pages_forward`).
-/

namespace LegalRag

open PyStr Regex Windows

/-- The pieces of every text are windows of it whose beginnings and ends move forward. -/
def SplitsForward (split : List Char → List (List Char)) : Prop :=
  ∀ text, ∃ windows : List (Nat × Nat), windows.Pairwise (· ≤ ·) ∧
    split text = windows.map fun w => (text.take w.2).drop w.1

/-- The pages of a chunk. -/
def Chunk.pages (c : Chunk) : Option Nat × Option Nat := (c.pageFrom, c.pageTo)

/-- The pages of the chunks do not go back, and are pages with a text, the first one of a chunk not after
its last one. -/
structure PagesForward (parsed : ParseResult) (chunks : List Chunk) : Prop where
  forward : chunks.Pairwise fun c d => Follows c.pages d.pages
  within : ∀ c ∈ chunks,
    RangeIn ((parsed.pages.filter fun p => p.text ≠ "").map ParsedPage.pageNumber) c.pages

/-! ### The pages of a piece -/

section Pieces

variable {H B : List Tok} {prev : Option Char}

/-- The markers in a piece are a window of the markers of the text. -/
private theorem pagesIn_piece (hl : Lines prev B) (hn : NoPage B) (a b : Nat) :
    pagesIn (((chars B).take b).drop a) = window (markers B) (beginsWithin a B, endsWithin b B) := by
  have hlines := lines_dropChars (lines_takeChars hl b) (Or.inl rfl) a
  have hno := (unmatched_dropChars (unmatched_takeChars hn b) a).noHit none
  rw [← chars_takeChars, ← chars_dropChars, pagesIn_chars hlines hno, markers_piece]
  rfl

/-- Within a line no line begins. -/
private theorem lastOr_in_line {c : Char} (hc : c ≠ '\n') {w : List Char} (hw : '\n' ∉ w) :
    ¬ (lastOr (some c) w = none ∨ lastOr (some c) w = some '\n') := by
  unfold lastOr
  cases hlast : w.getLast? with
  | none => simpa using hc
  | some d =>
    have hd : d ∈ w := List.mem_of_getLast? hlast
    rintro (hnone | hsome)
    · cases hnone
    · obtain rfl : d = '\n' := Option.some.inj hsome
      exact hw hd

/-- No match begins in a heading, whatever stands after the blank line. -/
private theorem run_heading {text a b rest : List Char} (hno : ¬ pageWord <:+: text) {A L : List Char}
    (hline : text = A ++ 'Đ' :: L) (hL : '\n' ∉ L) (hab : text = a ++ b) :
    run rePage (lastOr none a) (b ++ '\n' :: '\n' :: rest) = none := by
  by_contra hne
  obtain ⟨hstart, x, y, d, e, r, hs, ⟨-, hx⟩, -⟩ :=
    run_rePage_isSome.mp (Option.isSome_iff_ne_none.mpr hne)
  by_cases hmem : 'Đ' ∈ b
  · -- `[Page` would stand in the heading, or `Đ` before it
    rw [← List.append_assoc, ← List.append_assoc] at hs
    rcases List.append_eq_append_iff.mp hs with ⟨w, hw, -⟩ | ⟨w, rfl, -⟩
    · have hin : 'Đ' ∈ ['#', '#'] ++ x ++ pageWord := by
        rw [hw]
        exact List.mem_append_left _ hmem
      simp only [List.mem_append] at hin
      rcases hin with (hin | hin) | hin
      · exact absurd hin (by decide)
      · exact absurd (hx _ hin) (by decide)
      · exact absurd hin (by decide)
    · refine hno ⟨a ++ (['#', '#'] ++ x), w, ?_⟩
      rw [hab]
      simp only [List.append_assoc]
  · -- the match would begin within the last line
    rcases List.append_eq_append_iff.mp (hline.symm.trans hab) with ⟨w, rfl, hw⟩ | ⟨w, -, hw⟩
    · rcases w with _ | ⟨c, w⟩
      · rw [List.nil_append] at hw
        exact hmem (hw ▸ List.mem_cons_self)
      · obtain ⟨rfl, rfl⟩ := List.cons.inj hw
        rw [lastOr_append, lastOr_cons] at hstart
        exact lastOr_in_line (by decide) (fun hw => hL (List.mem_append_left _ hw)) hstart
    · exact hmem (hw ▸ List.mem_append_right _ List.mem_cons_self)

/-- A heading before a piece does not change its pages. -/
private theorem pagesIn_headed (hmH : markers H = []) (hnH : NoPage H)
    (hline : ∃ A L, chars H = A ++ 'Đ' :: L ∧ '\n' ∉ L) (hl : Lines prev B) (hn : NoPage B) (a b : Nat) :
    pagesIn (withHeading (chars H) (((chars B).take b).drop a)) =
      window (markers B) (beginsWithin a B, endsWithin b B) := by
  obtain ⟨A, L, hchars, hL⟩ := hline
  have hlines : Lines (some '\n') (dropChars a (takeChars b B)) :=
    lines_dropChars (lines_takeChars hl b) (Or.inr rfl) a
  have hquiet := unmatched_dropChars (unmatched_takeChars hn b) a
  have hne : ¬ (chars H).isEmpty := by
    rw [hchars]
    simp
  -- heading, blank line and piece are one text with markers
  have htext : withHeading (chars H) (((chars B).take b).drop a) =
      chars (H ++ .newline :: .newline :: dropChars a (takeChars b B)) := by
    rw [withHeading, if_neg hne, ← chars_takeChars, ← chars_dropChars, chars_append]
    simp [Tok.newline, Glyph.lit]
  have hnH' : ¬ pageWord <:+: chars H := by
    rw [chars_of_no_markers hmH]
    exact hnH
  have hhit : NoHit none (H ++ .newline :: .newline :: dropChars a (takeChars b B)) :=
    noHit_glyphs hmH (fun x y hxy _ => run_heading hnH' hchars hL hxy)
      ⟨run_newline _ _, run_newline _ _, hquiet.noHit _⟩
  rw [htext, pagesIn_chars ((lines_of_markers hmH).blank hlines) hhit, markers_append, hmH, List.nil_append]
  exact markers_piece a b B

end Pieces

/-! ### The pages of a section -/

section Sections

variable {lib : ChunkerLib} {maxTokens overlapTokens : Nat} {texts : List String}

/-- The texts that are emitted for a section are made of windows of its body. -/
private theorem sectionTexts_windows (hsplit : SplitsForward (lib.splitText maxTokens overlapTokens))
    (s : Section Char) :
    ∃ windows : List (Nat × Nat), windows.Pairwise (· ≤ ·) ∧
      sectionTexts lib maxTokens overlapTokens s =
        windows.map fun w => withHeading (s.heading id) ((s.body.take w.2).drop w.1) := by
  unfold sectionTexts
  by_cases hfit : lib.countTokens (withHeading (s.heading id) s.body) ≤ maxTokens
  · refine ⟨[(0, s.body.length)], List.pairwise_singleton _ _, ?_⟩
    rw [if_pos hfit, List.map_singleton, List.drop_zero, List.take_length]
  · obtain ⟨windows, hforward, hpieces⟩ := hsplit s.body
    refine ⟨windows, hforward, ?_⟩
    rw [if_neg hfit, hpieces, List.map_map]
    rfl

/-- The markers of a body are windows of all markers that move forward, from those before the section, or
from the first one, up to those before the next section. -/
private theorem section_windows (hclean : NoPage (tokens texts))
    (hsplit : SplitsForward (lib.splitText maxTokens overlapTokens)) {first : Bool} {s : Section Glyph}
    {T S C : List Tok} (h : Placed texts first s T S C) :
    ∃ ws : List (Nat × Nat), (sectionTexts lib maxTokens overlapTokens (s.map Glyph.ch)).map pagesIn =
        ws.map (window (markers (tokens texts))) ∧ ws.Pairwise (· ≤ ·) ∧
      ∀ w ∈ ws, ((markers (if first then [] else T)).length, (markers (if first then [] else T)).length) ≤ w ∧
        w ≤ ((markers (T ++ S)).length, (markers (T ++ S)).length) := by
  obtain ⟨H, hH, hmH, hnH, hline⟩ := h.heading hclean
  obtain ⟨B, hB, hlB, hnB, hmB⟩ := h.bodyToks hclean
  obtain ⟨windows, hforward, htexts⟩ := sectionTexts_windows hsplit (s.map Glyph.ch)
  obtain ⟨R, hR⟩ := h.pre
  -- the markers before the body, in it, and after it
  have hall : markers (tokens texts) = markers (if first then [] else T) ++ markers B ++ markers R := by
    rw [← hR, markers_append, markers_append, hmB]
    cases first <;> simp
  have hend : (markers (T ++ S)).length =
      (markers (if first then [] else T)).length + (markers B).length := by
    rw [markers_append, hmB]
    cases first <;> simp
  generalize markers (if first then [] else T) = pre at hall hend ⊢
  refine ⟨windows.map fun w => (pre.length + beginsWithin w.1 B, pre.length + endsWithin w.2 B), ?_, ?_, ?_⟩
  · rw [htexts, hH, hB, List.map_map, List.map_map]
    refine List.map_congr_left fun w _ => ?_
    rw [Function.comp_apply, Function.comp_apply, pagesIn_headed hmH hnH hline hlB hnB, hall,
      window_append _ _ _ _ (endsWithin_le _ _)]
  · refine List.pairwise_map.mpr (hforward.imp fun {v w} hvw => ⟨?_, ?_⟩)
    · exact Nat.add_le_add_left (beginsWithin_mono hvw.1 B) _
    · exact Nat.add_le_add_left (endsWithin_mono hvw.2 B) _
  · intro w hw
    obtain ⟨v, -, rfl⟩ := List.mem_map.mp hw
    rw [hend]
    have hbegin := beginsWithin_le v.1 B
    have hstop := endsWithin_le v.2 B
    exact ⟨⟨Nat.le_add_right _ _, Nat.le_add_right _ _⟩,
      ⟨Nat.add_le_add_left hbegin _, Nat.add_le_add_left hstop _⟩⟩

/-- The number of markers before a position, twice. -/
def markersBefore (texts : List String) (pos : Nat) : Nat × Nat :=
  (endsWithin pos (tokens texts), endsWithin pos (tokens texts))

private theorem Placed.markersBefore {first : Bool} {s : Section Glyph} {T S C : List Tok}
    (h : Placed texts first s T S C) :
    markersBefore texts (chars T).length = ((markers T).length, (markers T).length) ∧
      markersBefore texts (chars (T ++ S)).length =
      ((markers (T ++ S)).length, (markers (T ++ S)).length) := by
  obtain ⟨R, hR⟩ := h.pre
  unfold LegalRag.markersBefore
  rw [← hR, endsWithin_append, List.append_assoc, endsWithin_append]
  exact ⟨rfl, rfl⟩

/-- The section of a match has windows between the markers before the match and those before its end. -/
private theorem hit_windows (hclean : NoPage (tokens texts))
    (hsplit : SplitsForward (lib.splitText maxTokens overlapTokens)) {h : Hit}
    (hh : h ∈ finditer (reDieu lib.isWord) (chars (tokens texts))) {stop : Nat}
    (hle : h.start + h.length ≤ stop)
    (hstop : stop = (glyphs texts).length ∨
      ∃ h' ∈ finditer (reDieu lib.isWord) (chars (tokens texts)), h'.start = stop) (first : Bool) :
    ∃ ws : List (Nat × Nat), (sectionTexts lib maxTokens overlapTokens ((sectionAt Glyph.ch Glyph.lit
        (chuongPositions Glyph.ch lib.isWord (glyphs texts))
        (if first then strip Glyph.ch ((glyphs texts).take h.start) else []) (glyphs texts) h.start stop).map
          Glyph.ch)).map pagesIn = ws.map (window (markers (tokens texts))) ∧ ws.Pairwise (· ≤ ·) ∧
      ∀ w ∈ ws, (first = false → markersBefore texts h.start ≤ w) ∧ w ≤ markersBefore texts stop := by
  obtain ⟨T, S, C, hplaced, hT, hTS⟩ := placed_of_hit hclean hh hle hstop first
  obtain ⟨ws, htexts, hforward, hbounds⟩ := section_windows hclean hsplit hplaced
  obtain ⟨hbegin, hend⟩ := hplaced.markersBefore
  rw [hT] at hbegin
  rw [hTS] at hend
  refine ⟨ws, htexts, hforward, fun w hw => ⟨?_, hend ▸ (hbounds w hw).2⟩⟩
  rintro rfl
  exact hbegin ▸ (hbounds w hw).1

/-- The texts that are emitted for the sections that begin at given positions. -/
def textsFrom (lib : ChunkerLib) (maxTokens overlapTokens : Nat) (texts : List String) (pre : List Glyph)
    (starts : List Nat) : List (List Char) :=
  (sectionsFrom Glyph.ch Glyph.lit (chuongPositions Glyph.ch lib.isWord (glyphs texts)) (glyphs texts) pre
    starts).flatMap fun s => sectionTexts lib maxTokens overlapTokens (s.map Glyph.ch)

/-- The same for all sections from a match on. -/
private theorem sections_windows (hclean : NoPage (tokens texts))
    (hsplit : SplitsForward (lib.splitText maxTokens overlapTokens)) {h : Hit} {hs : List Hit}
    (hmem : ∀ k ∈ h :: hs, k ∈ finditer (reDieu lib.isWord) (chars (tokens texts)))
    (hsorted : (h :: hs).Pairwise fun k k' => k.start < k'.start ∧ k.start + k.length ≤ k'.start)
    (first : Bool) :
    ∃ ws : List (Nat × Nat), (textsFrom lib maxTokens overlapTokens texts
        (if first then strip Glyph.ch ((glyphs texts).take h.start) else []) ((h :: hs).map
        Hit.start)).map pagesIn =
        ws.map (window (markers (tokens texts))) ∧ ws.Pairwise (· ≤ ·) ∧
      ∀ w ∈ ws, first = false → markersBefore texts h.start ≤ w := by
  have hlength : (chars (tokens texts)).length = (glyphs texts).length := by
    rw [chars, flat_tokens, List.length_map]
  have hh := hmem h List.mem_cons_self
  induction hs generalizing h first with
  | nil =>
    have hle : h.start + h.length ≤ (glyphs texts).length := by
      rw [← hlength]
      simpa using (hit_bounds hh).2
    obtain ⟨ws, htexts, hforward, hbounds⟩ := hit_windows hclean hsplit hh hle (Or.inl rfl) first
    refine ⟨ws, ?_, hforward, fun w hw => (hbounds w hw).1⟩
    rw [← htexts]
    exact congrArg (List.map pagesIn) (List.append_nil _)
  | cons h' hs ih =>
    have hh' := hmem h' (List.mem_cons_of_mem _ List.mem_cons_self)
    obtain ⟨hnext, hsorted'⟩ := List.pairwise_cons.mp hsorted
    obtain ⟨hlt, hle⟩ := hnext h' List.mem_cons_self
    obtain ⟨ws, htexts, hforward, hbounds⟩ :=
      hit_windows hclean hsplit hh hle (Or.inr ⟨h', hh', rfl⟩) first
    obtain ⟨ws', htexts', hforward', hbounds'⟩ :=
      ih (fun k hk => hmem k (List.mem_cons_of_mem _ hk)) hsorted' false hh'
    have hlater : ∀ w ∈ ws', markersBefore texts h'.start ≤ w := fun w hw => hbounds' w hw rfl
    refine ⟨ws ++ ws', ?_, List.pairwise_append.mpr ⟨hforward, hforward', ?_⟩, ?_⟩
    · rw [List.map_append, ← htexts, ← htexts', ← List.map_append]
      rfl
    · intro w hw w' hw'
      exact (hbounds w hw).2.trans (hlater w' hw')
    · rintro w hw rfl
      rcases List.mem_append.mp hw with hw | hw
      · exact (hbounds w hw).1 rfl
      · have hmono := endsWithin_mono (Nat.le_of_lt hlt) (tokens texts)
        have hbefore : markersBefore texts h.start ≤ markersBefore texts h'.start := ⟨hmono, hmono⟩
        exact hbefore.trans (hlater w hw)

/-- The markers of the emitted texts are windows of all markers that move forward. -/
theorem emitted_windows (hclean : NoPage (tokens texts))
    (hsplit : SplitsForward (lib.splitText maxTokens overlapTokens)) :
    ∃ ws : List (Nat × Nat),
      (emittedTexts lib maxTokens overlapTokens (parsePdf texts).markdown.toList).map pagesIn =
        ws.map (window (markers (tokens texts))) ∧ ws.Pairwise (· ≤ ·) := by
  unfold emittedTexts
  by_cases hlegal : isLegalDoc lib.isWord (parsePdf texts).markdown.toList
  · rw [if_pos hlegal, splitByDieu_markdown, List.flatMap_map]
    have hch : (glyphs texts).map Glyph.ch = chars (tokens texts) := by rw [chars, flat_tokens]
    obtain ⟨h, hs, hhits⟩ := List.exists_cons_of_ne_nil (dieu_of_legal hlegal)
    have hsorted := hitsFrom_sorted (reDieu lib.isWord) 0 0 none (chars (tokens texts))
    rw [show hitsFrom (reDieu lib.isWord) 0 0 none (chars (tokens texts)) = h :: hs from hhits] at hsorted
    obtain ⟨ws, htexts, hforward, -⟩ :=
      sections_windows hclean hsplit (fun k hk => hhits ▸ hk) hsorted true
    refine ⟨ws, ?_, hforward⟩
    rw [← htexts, splitByDieu, hch, hhits]
    rfl
  · obtain ⟨windows, hforward, hpieces⟩ := hsplit (parsePdf texts).markdown.toList
    refine ⟨windows.map fun w => (beginsWithin w.1 (tokens texts), endsWithin w.2 (tokens texts)), ?_, ?_⟩
    · rw [if_neg hlegal, hpieces, List.map_map, List.map_map, ← chars_tokens]
      exact List.map_congr_left fun w _ => pagesIn_piece (lines_tokens texts) hclean w.1 w.2
    · exact List.pairwise_map.mpr (hforward.imp fun {v w} hvw =>
        ⟨beginsWithin_mono hvw.1 _, endsWithin_mono hvw.2 _⟩)

end Sections

/-! ### The pages of the chunks -/

/-- The pages of the chunks are those of the emitted texts, without the texts of which nothing is left. -/
private theorem emissions_pages (last : Option Nat) (texts : List (List Char)) :
    ((emissions last texts).map fun e => (e.pageFrom, e.pageTo)).Sublist
      (ranges last (texts.map pagesIn)) := by
  induction texts generalizing last with
  | nil => exact List.Sublist.slnil
  | cons text texts ih =>
    have hrange : pagesOf last text = rangeOf last (pagesIn text) := rfl
    rw [emissions, List.map_cons, ranges, ← hrange, List.map_append]
    by_cases htext : stripPageMarkers text = []
    · rw [if_pos htext]
      exact (ih _).cons _
    · rw [if_neg htext]
      exact (ih _).cons_cons _

private theorem chunks_pages (lib : ChunkerLib) (maxTokens overlapTokens : Nat) (parsed : ParseResult) :
    ((chunkDocument lib maxTokens overlapTokens parsed).map Chunk.pages).Sublist
      (ranges none ((emittedTexts lib maxTokens overlapTokens parsed.markdown.toList).map pagesIn)) := by
  have hfacts := congrArg (List.map fun f : String × Nat × Option Nat × Option Nat => f.2.2)
    (chunks_eq lib maxTokens overlapTokens parsed)
  rw [List.map_map, List.map_map] at hfacts
  have hpages : (chunkDocument lib maxTokens overlapTokens parsed).map Chunk.pages =
      (emissions none (emittedTexts lib maxTokens overlapTokens parsed.markdown.toList)).map
        fun e => (e.pageFrom, e.pageTo) := hfacts
  rw [hpages]
  exact emissions_pages none _

/-- The markers of the markdown are the pages that have a text, in order. -/
private theorem markers_tokens (texts : List String) :
    markers (tokens texts) = (textPages texts).map ParsedPage.pageNumber := by
  unfold tokens
  generalize textPages texts = ps
  induction ps with
  | nil => rfl
  | cons p ps ih =>
    have hp : markers p.tokens = [p.pageNumber] := congrArg (p.pageNumber :: ·) (markers_pageText p)
    cases ps with
    | nil => exact hp
    | cons q ps =>
      rw [List.map_cons, List.map_cons, join, markers_append, markers_append, hp, ← List.map_cons, ih]
      rfl

/-- Where the splitter moves forward, so do the pages of the chunks of a PDF. -/
theorem pages_forward {lib : ChunkerLib} {maxTokens overlapTokens : Nat} {texts : List String}
    (hclean : ∀ text ∈ texts, ¬ pageWord <:+: text.toList)
    (hsplit : SplitsForward (lib.splitText maxTokens overlapTokens)) :
    PagesForward (parsePdf texts) (chunkDocument lib maxTokens overlapTokens (parsePdf texts)) := by
  obtain ⟨ws, htexts, hforward⟩ := emitted_windows (noPage_tokens hclean) hsplit
  have hpages := chunks_pages lib maxTokens overlapTokens (parsePdf texts)
  rw [htexts] at hpages
  have hincreasing : (markers (tokens texts)).Pairwise (· < ·) := by
    rw [markers_tokens]
    exact List.pairwise_map.mpr ((pagesFrom_sorted 0 texts).filter _)
  have hsorted : ((0, 0) :: ws).Pairwise (· ≤ ·) :=
    List.Pairwise.cons (fun w _ => ⟨Nat.zero_le _, Nat.zero_le _⟩) hforward
  constructor
  · exact List.pairwise_map.mp ((ranges_forward hincreasing hsorted (by simp)).sublist hpages)
  · intro c hc
    have hin := @ranges_within Nat _ (markers (tokens texts)) ws none (by simp) c.pages
      (hpages.subset (List.mem_map_of_mem hc))
    rw [markers_tokens] at hin
    exact hin

/-- A token for every character, and pieces of `size` characters, of which `overlap` are in the next piece
too. -/
def slidingChunker : ChunkerLib where
  countTokens := List.length
  splitText size overlap text := (List.range (text.length / (size - overlap) + 1)).map fun i =>
    (text.take (i * (size - overlap) + size)).drop (i * (size - overlap))
  isWord := Char.isAlphanum

private theorem slidingChunker_forward (size overlap : Nat) :
    SplitsForward (slidingChunker.splitText size overlap) := by
  intro text
  refine ⟨(List.range (text.length / (size - overlap) + 1)).map fun i =>
    (i * (size - overlap), i * (size - overlap) + size), ?_, ?_⟩
  · refine List.pairwise_map.mpr (List.pairwise_lt_range.imp fun {i j} hij => ?_)
    have hle := Nat.mul_le_mul_right (size - overlap) (Nat.le_of_lt hij)
    exact ⟨hle, Nat.add_le_add_right hle size⟩
  · rw [List.map_map]
    rfl

theorem pages_forward_twoPages :
    PagesForward (parsePdf twoPages) (chunkDocument slidingChunker 20 5 (parsePdf twoPages)) :=
  pages_forward (by decide) (slidingChunker_forward 20 5)

end LegalRag
