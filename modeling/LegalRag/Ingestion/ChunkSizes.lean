import LegalRag.Ingestion.Emitted
import LegalRag.Redis.Lists

/-!
# How large the chunks are

A section that is not too long is counted with its heading, and so is a piece of a text that is not legal
before it is emitted; but a section that is too long is split without its heading, which is then put in
front of every piece.  The chunks have at most `maxTokens` tokens exactly if the pieces leave room for the
headings, and if what was counted does not grow when its markers are taken out (`chunks_small_iff`).
-/

namespace LegalRag

open PyStr Regex

variable {lib : ChunkerLib} {maxTokens overlapTokens : Nat}

/-- The chunk that is made from a text, if there is one, has at most `maxTokens` tokens. -/
def Small (lib : ChunkerLib) (maxTokens : Nat) (text : List Char) : Prop :=
  stripPageMarkers text ≠ [] → lib.countTokens (stripPageMarkers text) ≤ maxTokens

instance (lib : ChunkerLib) (maxTokens : Nat) (text : List Char) : Decidable (Small lib maxTokens text) :=
  inferInstanceAs (Decidable (_ → _))

/-- The text of a section, with its heading. -/
def Section.text (s : Section Char) : List Char := withHeading (s.heading id) s.body

/-- The texts that are counted as they are emitted: the sections that are not too long, or the pieces of a
text that is not legal. -/
def countedTexts (lib : ChunkerLib) (maxTokens overlapTokens : Nat) (md : List Char) : List (List Char) :=
  if isLegalDoc lib.isWord md then
    ((splitByDieu id id lib.isWord md).map Section.text).filter fun text =>
      lib.countTokens text ≤ maxTokens
  else lib.splitText maxTokens overlapTokens md

/-- With the heading of its section before it, a piece of a section that is too long is small enough, and
so is a text that was counted once its markers are taken out. -/
structure RoomForHeadings (lib : ChunkerLib) (maxTokens overlapTokens : Nat) (md : List Char) : Prop where
  pieces : isLegalDoc lib.isWord md → ∀ s ∈ splitByDieu id id lib.isWord md,
    maxTokens < lib.countTokens s.text → ∀ piece ∈ lib.splitText maxTokens overlapTokens s.body,
      Small lib maxTokens (withHeading (s.heading id) piece)
  marked : ∀ text ∈ countedTexts lib maxTokens overlapTokens md, stripPageMarkers text ≠ text →
    Small lib maxTokens text

/-- The chunks are small if and only if what is emitted is. -/
private theorem chunks_le_iff (parsed : ParseResult) :
    (∀ c ∈ chunkDocument lib maxTokens overlapTokens parsed, c.nTokens ≤ maxTokens) ↔
      ∀ text ∈ emittedTexts lib maxTokens overlapTokens parsed.markdown.toList, Small lib maxTokens text := by
  have hfacts := chunks_eq lib maxTokens overlapTokens parsed
  constructor
  · intro hchunks text htext hne
    have hemitted := (@mem_emissions none _ _).mpr ⟨text, htext, hne, rfl⟩
    obtain ⟨e, he, hetext⟩ := List.mem_map.mp hemitted
    have hmem := List.mem_map_of_mem (f := Emission.facts lib) he
    rw [← hfacts] at hmem
    obtain ⟨c, hc, hsame⟩ := List.mem_map.mp hmem
    have htokens : c.nTokens = lib.countTokens e.text := congrArg (fun f => f.2.1) hsame
    rw [← hetext, ← htokens]
    exact hchunks c hc
  · intro hsmall c hc
    have hmem := List.mem_map_of_mem (f := Chunk.facts) hc
    rw [hfacts] at hmem
    obtain ⟨e, he, hsame⟩ := List.mem_map.mp hmem
    have htokens : lib.countTokens e.text = c.nTokens := congrArg (fun f => f.2.1) hsame
    obtain ⟨text, htext, hne, hstrip⟩ := mem_emissions.mp (List.mem_map_of_mem (f := Emission.text) he)
    rw [← htokens, ← hstrip]
    exact hsmall text htext hne

private theorem sectionTexts_short {s : Section Char} (h : lib.countTokens s.text ≤ maxTokens) :
    sectionTexts lib maxTokens overlapTokens s = [s.text] := if_pos h

private theorem sectionTexts_long {s : Section Char} (h : maxTokens < lib.countTokens s.text) :
    sectionTexts lib maxTokens overlapTokens s =
      (lib.splitText maxTokens overlapTokens s.body).map (withHeading (s.heading id)) :=
  if_neg (Nat.not_le_of_lt h)

/-- What is emitted has been counted, or is a piece with a heading. -/
private theorem mem_emittedTexts {md text : List Char} :
    text ∈ emittedTexts lib maxTokens overlapTokens md ↔
      text ∈ countedTexts lib maxTokens overlapTokens md ∨
      isLegalDoc lib.isWord md ∧ ∃ s ∈ splitByDieu id id lib.isWord md, maxTokens < lib.countTokens s.text ∧
        ∃ piece ∈ lib.splitText maxTokens overlapTokens s.body, withHeading (s.heading id) piece = text := by
  unfold emittedTexts countedTexts
  by_cases hlegal : isLegalDoc lib.isWord md
  · rw [if_pos hlegal, if_pos hlegal, List.mem_flatMap, List.mem_filter, List.mem_map]
    constructor
    · rintro ⟨s, hs, htext⟩
      rcases Nat.lt_or_ge maxTokens (lib.countTokens s.text) with hlong | hfit
      · rw [sectionTexts_long hlong] at htext
        exact Or.inr ⟨hlegal, s, hs, hlong, List.mem_map.mp htext⟩
      · rw [sectionTexts_short hfit] at htext
        obtain rfl := List.mem_singleton.mp htext
        exact Or.inl ⟨⟨s, hs, rfl⟩, decide_eq_true hfit⟩
    · rintro (⟨⟨s, hs, rfl⟩, hfit⟩ | ⟨-, s, hs, hlong, hpiece⟩)
      · have hfit : lib.countTokens s.text ≤ maxTokens := of_decide_eq_true hfit
        refine ⟨s, hs, ?_⟩
        rw [sectionTexts_short hfit]
        exact List.mem_singleton.mpr rfl
      · refine ⟨s, hs, ?_⟩
        rw [sectionTexts_long hlong]
        exact List.mem_map.mpr hpiece
  · rw [if_neg hlegal, if_neg hlegal]
    simp [hlegal]

private theorem count_le_of_mem_counted
    (hpieces : ∀ text, ∀ piece ∈ lib.splitText maxTokens overlapTokens text,
      lib.countTokens piece ≤ maxTokens)
    {md text : List Char} (h : text ∈ countedTexts lib maxTokens overlapTokens md) :
    lib.countTokens text ≤ maxTokens := by
  unfold countedTexts at h
  by_cases hlegal : isLegalDoc lib.isWord md
  · rw [if_pos hlegal] at h
    exact of_decide_eq_true (List.mem_filter.mp h).2
  · rw [if_neg hlegal] at h
    exact hpieces md text h

/-- Where the splitter returns small pieces, the chunks are small exactly if there is room for the
headings and for what the markers leave. -/
theorem chunks_small_iff
    (hpieces : ∀ text, ∀ piece ∈ lib.splitText maxTokens overlapTokens text,
      lib.countTokens piece ≤ maxTokens) (parsed : ParseResult) :
    (∀ c ∈ chunkDocument lib maxTokens overlapTokens parsed, c.nTokens ≤ maxTokens) ↔
      RoomForHeadings lib maxTokens overlapTokens parsed.markdown.toList := by
  rw [chunks_le_iff]
  constructor
  · intro hsmall
    constructor
    · intro hlegal s hs hlong piece hpiece
      exact hsmall _ (mem_emittedTexts.mpr (Or.inr ⟨hlegal, s, hs, hlong, piece, hpiece, rfl⟩))
    · intro text htext _
      exact hsmall text (mem_emittedTexts.mpr (Or.inl htext))
  · intro hroom text htext
    rcases mem_emittedTexts.mp htext with hcounted | ⟨hlegal, s, hs, hlong, piece, hpiece, rfl⟩
    · by_cases hsame : stripPageMarkers text = text
      · -- the text is its own chunk, and was counted
        intro _
        rw [hsame]
        exact count_le_of_mem_counted hpieces hcounted
      · exact hroom.marked text hcounted hsame
    · exact hroom.pieces hlegal s hs hlong piece hpiece

/-! ### A heading for which there is no room -/

/-- A token for every character, and pieces of as many characters as fit. -/
def charChunker : ChunkerLib := ⟨List.length, fun size _ text => Redis.slices size text, Char.isAlphanum⟩

/-- A legal text whose second section is too long for twenty tokens, with a body that is not. -/
def longArticle : ParseResult :=
  let md := "Điều 1\na\nChương I\nĐiều 2\n1 2 3 4 5 6 7 8 9 0\nĐiều 3\nb"
  ⟨[⟨1, md⟩], md⟩

private theorem charChunker_pieces (text : List Char) :
    ∀ piece ∈ charChunker.splitText 20 5 text, charChunker.countTokens piece ≤ 20 := by
  intro piece hpiece
  exact Redis.length_le_of_mem_slices hpiece

/-- All pieces have at most twenty tokens, and its second chunk has more. -/
theorem longArticle_not_small :
    (∀ text, ∀ piece ∈ charChunker.splitText 20 5 text, charChunker.countTokens piece ≤ 20) ∧
    ¬ ∀ c ∈ chunkDocument charChunker 20 5 longArticle, c.nTokens ≤ 20 := by
  refine ⟨charChunker_pieces, ?_⟩
  decide

theorem chunks_small_iff_longArticle :
    (∀ c ∈ chunkDocument charChunker 20 5 longArticle, c.nTokens ≤ 20) ↔
      RoomForHeadings charChunker 20 5 longArticle.markdown.toList :=
  chunks_small_iff charChunker_pieces longArticle

end LegalRag
