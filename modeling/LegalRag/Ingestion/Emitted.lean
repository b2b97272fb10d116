import LegalRag.Ingestion.Headings

/-!
# What the chunks are made from

The chunker hands one text after the other to `_emit`, whole sections and pieces alike.  What the chunks
say of their texts, their sizes and their pages, depends on these texts and their order only: `chunks_eq`
reads it off the list `emissions`.
-/

namespace LegalRag

open PyStr Regex

/-- The texts that are emitted for a document. -/
def emittedTexts (lib : ChunkerLib) (maxTokens overlapTokens : Nat) (md : List Char) : List (List Char) :=
  if isLegalDoc lib.isWord md then
    (splitByDieu id id lib.isWord md).flatMap (sectionTexts lib maxTokens overlapTokens)
  else lib.splitText maxTokens overlapTokens md

/-- A text that becomes a chunk, without its markers, and the pages of the chunk. -/
structure Emission where
  text : List Char
  pageFrom : Option Nat
  pageTo : Option Nat
  deriving DecidableEq, Repr

/-- The pages of an emitted text; one without a marker is on the last page that was seen. -/
def pagesOf (last : Option Nat) (text : List Char) : Option Nat × Option Nat :=
  if (pageRangeFor text).2.isSome then pageRangeFor text else (last, last)

/-- What becomes of emitted texts. -/
def emissions : Option Nat → List (List Char) → List Emission
  | _, [] => []
  | last, text :: texts =>
    (if stripPageMarkers text = [] then []
      else [⟨stripPageMarkers text, (pagesOf last text).1, (pagesOf last text).2⟩]) ++
    emissions (pagesOf last text).2 texts

/-- What a chunk says of its text. -/
def Chunk.facts (c : Chunk) : String × Nat × Option Nat × Option Nat :=
  (c.text, c.nTokens, c.pageFrom, c.pageTo)

def Emission.facts (lib : ChunkerLib) (e : Emission) : String × Nat × Option Nat × Option Nat :=
  (.ofList e.text, lib.countTokens e.text, e.pageFrom, e.pageTo)

/-- The last page that is seen in emitted texts. -/
def lastSeen : Option Nat → List (List Char) → Option Nat
  | last, [] => last
  | last, text :: texts => lastSeen (pagesOf last text).2 texts

section Loop

variable {lib : ChunkerLib}

private theorem emissions_append (last : Option Nat) (ts ts' : List (List Char)) :
    emissions last (ts ++ ts') = emissions last ts ++ emissions (lastSeen last ts) ts' := by
  induction ts generalizing last with
  | nil => rfl
  | cons t ts ih => simp only [List.cons_append, emissions, lastSeen, ih, List.append_assoc]

private theorem emit_facts (heading : Option String) (st : ChunkState) (text : List Char) :
    (emit lib heading st text).chunks.map Chunk.facts =
      st.chunks.map Chunk.facts ++ (emissions st.lastPage [text]).map (Emission.facts lib) ∧
    (emit lib heading st text).lastPage = lastSeen st.lastPage [text] := by
  unfold emit
  by_cases htext : stripPageMarkers text = []
  · simp [htext, emissions, lastSeen, pagesOf]
  · simp [htext, emissions, lastSeen, pagesOf, Chunk.facts, Emission.facts]

private theorem foldl_emit_facts (heading : Option String) (texts : List (List Char)) (st : ChunkState) :
    (texts.foldl (emit lib heading) st).chunks.map Chunk.facts =
      st.chunks.map Chunk.facts ++ (emissions st.lastPage texts).map (Emission.facts lib) ∧
    (texts.foldl (emit lib heading) st).lastPage = lastSeen st.lastPage texts := by
  induction texts generalizing st with
  | nil => simp [emissions, lastSeen]
  | cons text texts ih =>
    obtain ⟨hfacts, hlast⟩ := @emit_facts lib heading st text
    obtain ⟨hrest, hlast'⟩ := ih (emit lib heading st text)
    have hcons := emissions_append st.lastPage [text] texts
    rw [List.singleton_append] at hcons
    rw [List.foldl_cons]
    constructor
    · rw [hrest, hfacts, hlast, hcons, List.map_append, List.append_assoc]
    · rw [hlast', hlast]
      rfl

private theorem foldl_sections_facts {maxTokens overlapTokens : Nat} (ss : List (Section Char))
    (st : ChunkState) :
    (ss.foldl (emitSection lib maxTokens overlapTokens) st).chunks.map Chunk.facts =
      st.chunks.map Chunk.facts ++ (emissions st.lastPage
        (ss.flatMap (sectionTexts lib maxTokens overlapTokens))).map (Emission.facts lib) := by
  induction ss generalizing st with
  | nil => simp [emissions]
  | cons s ss ih =>
    obtain ⟨hfacts, hlast⟩ := @foldl_emit_facts lib (orNone (s.heading id))
      (sectionTexts lib maxTokens overlapTokens s) st
    rw [List.foldl_cons, emitSection_eq, ih, hfacts, hlast, List.flatMap_cons, emissions_append,
      List.map_append, List.append_assoc]

end Loop

/-- What the chunks say. -/
theorem chunks_eq (lib : ChunkerLib) (maxTokens overlapTokens : Nat) (parsed : ParseResult) :
    (chunkDocument lib maxTokens overlapTokens parsed).map Chunk.facts =
      (emissions none (emittedTexts lib maxTokens overlapTokens parsed.markdown.toList)).map
        (Emission.facts lib) := by
  unfold chunkDocument emittedTexts
  by_cases hlegal : isLegalDoc lib.isWord parsed.markdown.toList
  · rw [if_pos hlegal, if_pos hlegal, foldl_sections_facts]
    rfl
  · rw [if_neg hlegal, if_neg hlegal, (foldl_emit_facts none _ _).1]
    rfl

theorem mem_emissions {last : Option Nat} {texts : List (List Char)} {x : List Char} :
    x ∈ (emissions last texts).map Emission.text ↔
      ∃ text ∈ texts, stripPageMarkers text ≠ [] ∧ stripPageMarkers text = x := by
  induction texts generalizing last with
  | nil => simp [emissions]
  | cons text texts ih =>
    rw [emissions, List.map_append, List.mem_append, ih, List.exists_mem_cons_iff]
    refine or_congr_left ?_
    by_cases htext : stripPageMarkers text = []
    · simp [htext]
    · simp [htext, eq_comm]

end LegalRag
