import LegalRag.Ingestion.Parsed
import LegalRag.Text.Regex

/-!
# The chunker

`src/ingestion/chunkers/base.py`.  The token counter (tiktoken), the splitter (LangChain) and the word
characters of Unicode are parameters (`ChunkerLib`).  The functions that cut a text into sections work on
glyphs, so that they can be run on characters that know their page; `" > "` and the blank line between
parts are put in by `lit`.
-/

namespace LegalRag

open PyStr Regex

/-- What the chunker takes from libraries. -/
structure ChunkerLib where
  countTokens : List Char → Nat
  /-- `RecursiveCharacterTextSplitter.split_text`, for a chunk size and an overlap. -/
  splitText : Nat → Nat → List Char → List (List Char)
  isWord : Char → Bool

structure Chunk where
  index : Nat
  text : String
  nTokens : Nat
  headingPath : Option String
  pageFrom : Option Nat
  pageTo : Option Nat
  deriving DecidableEq, Repr

/-- `_RE_PAGE`. -/
def rePage : List Atom :=
  .lineStart :: lit "##" ++ plus isSpace ++ lit "[Page" ++ plus isSpace ++ .mark :: plus isDigit ++
  .mark :: lit "]" ++ [.star isSpace, .lineEnd]

/-- The letters of `[IVXLCDM\d]` when the case is ignored; the undotted and the dotted capital i belong to
`I`. -/
def isNumeral (c : Char) : Bool := "IVXLCDMivxlcdmıİ".toList.contains c || isDigit c

/-- `_RE_CHUONG`, which ignores the case. -/
def reChuong (isWord : Char → Bool) : List Atom :=
  .lineStart :: .star isSpace :: ["Cc", "Hh", "Ưư", "Ơơ", "Nn", "Gg"].map
    (fun s => .one fun c => s.toList.contains c) ++
    plus isSpace ++ .mark :: plus isNumeral ++ .mark :: .boundary isWord :: [.star (· ≠ '\n'), .lineEnd]

/-- `_RE_DIEU`. -/
def reDieu (isWord : Char → Bool) : List Atom :=
  .lineStart :: .star isSpace :: lit "Điều" ++ plus isSpace ++ .mark :: plus isDigit ++
  .mark :: .boundary isWord :: [.star (· ≠ '\n'), .lineEnd]

/-- `_is_legal_doc`. -/
def isLegalDoc (isWord : Char → Bool) (md : List Char) : Bool :=
  3 ≤ (finditer (reDieu isWord) md).length && (finditer (reChuong isWord) md) ≠ []

/-- A section: the parts of its heading, and its body. -/
structure Section (γ : Type) where
  chuong : List γ
  title : List γ
  body : List γ
  deriving DecidableEq, Repr

section Glyphs

variable {γ : Type} (ch : γ → Char) (lit : Char → γ)

/-- A text put in by the chunker. -/
def litText (s : String) : List γ := s.toList.map lit

/-- `heading_path`. -/
def Section.heading (s : Section γ) : List γ :=
  join (litText lit " > ") ([s.chuong, s.title].filter (¬ ·.isEmpty))

/-- `_chuong_at`: the last heading at or before a position. -/
def chuongAt (chuongs : List (Nat × List γ)) (pos : Nat) : List γ :=
  (((chuongs.takeWhile fun c => c.1 ≤ pos).getLast?).map Prod.snd).getD []

/-- `chuong_positions`. -/
def chuongPositions (isWord : Char → Bool) (md : List γ) : List (Nat × List γ) :=
  (finditer (reChuong isWord) (md.map ch)).map fun h =>
  (h.start, strip ch ((md.drop h.start).take h.length))

/-- One section, from a match of `_RE_DIEU` to the next one; the first section is given the preamble. -/
def sectionAt (chuongs : List (Nat × List γ)) (preamble : List γ) (md : List γ) (start stop : Nat) :
    Section γ :=
  let s := strip ch ((md.take stop).drop start)
  let body :=
    strip ch (if preamble.isEmpty then afterLine ch s else preamble ++ litText lit "\n\n" ++
    afterLine ch s)
  { chuong := chuongAt chuongs start
    title := strip ch (firstLine ch s)
    body := if body.isEmpty then firstLine ch s else body }

/-- The sections that begin at the given positions, each ending where the next one begins. -/
def sectionsFrom (chuongs : List (Nat × List γ)) (md : List γ) : List γ → List Nat → List (Section γ)
  | _, [] => []
  | preamble, start :: starts =>
    sectionAt ch lit chuongs preamble md start (starts.headD md.length) :: sectionsFrom chuongs md [] starts

/-- `_split_by_dieu`. -/
def splitByDieu (isWord : Char → Bool) (md : List γ) : List (Section γ) :=
  match (finditer (reDieu isWord) (md.map ch)).map Hit.start with
  | [] => [⟨[], [], md⟩]
  | start :: starts =>
    sectionsFrom ch lit (chuongPositions ch isWord md) md (strip ch (md.take start)) (start :: starts)

end Glyphs

/-! ### Forgetting where the characters come from -/

section Erasure

variable {γ δ : Type} {ch : γ → Char} {lit : Char → γ} {ch' : δ → Char} {lit' : Char → δ} {e : γ → δ}

def Section.map (e : γ → δ) (s : Section γ) : Section δ := ⟨s.chuong.map e, s.title.map e, s.body.map e⟩

private theorem chuongAt_map (cs : List (Nat × List γ)) (pos : Nat) :
    chuongAt (cs.map fun c => (c.1, c.2.map e)) pos = (chuongAt cs pos).map e := by
  have hp : (fun c : Nat × List δ => decide (c.1 ≤ pos)) ∘ (fun c : Nat × List γ => (c.1, c.2.map e)) =
      fun c => decide (c.1 ≤ pos) := rfl
  rw [chuongAt, chuongAt, List.takeWhile_map, hp, List.getLast?_map, Option.map_map]
  cases (cs.takeWhile fun c => decide (c.1 ≤ pos)).getLast? <;> rfl

private theorem sectionAt_map (h : ∀ g, ch' (e g) = ch g) (hl : ∀ c, e (lit c) = lit' c)
    (cs : List (Nat × List γ)) (preamble md : List γ) (start stop : Nat) :
    sectionAt ch' lit' (cs.map fun c => (c.1, c.2.map e)) (preamble.map e) (md.map e) start stop =
      (sectionAt ch lit cs preamble md start stop).map e := by
  have hlit : litText lit' "\n\n" = (litText lit "\n\n").map e := by simp [litText, hl]
  have hs : strip ch' (((md.map e).take stop).drop start) = (strip ch ((md.take stop).drop start)).map e := by
    rw [← List.map_take, ← List.map_drop, map_strip h]
  have hpart : ∀ s : List γ, (if (preamble.map e).isEmpty then afterLine ch' (s.map e)
      else preamble.map e ++ litText lit' "\n\n" ++ afterLine ch' (s.map e)) =
      (if preamble.isEmpty then afterLine ch s else preamble ++ litText lit "\n\n" ++ afterLine ch s).map
        e := by
    intro s
    rw [map_afterLine h, hlit, List.isEmpty_map]
    by_cases hp : preamble.isEmpty
    · rw [if_pos hp, if_pos hp]
    · rw [if_neg hp, if_neg hp, List.map_append, List.map_append]
  have hbody : ∀ b s : List γ, (if (b.map e).isEmpty then (firstLine ch s).map e else b.map e) =
      (if b.isEmpty then firstLine ch s else b).map e := by
    intro b s
    rw [List.isEmpty_map]
    by_cases hb : b.isEmpty
    · rw [if_pos hb, if_pos hb]
    · rw [if_neg hb, if_neg hb]
  simp only [sectionAt, Section.map, hs, chuongAt_map, hpart, map_strip h, map_firstLine h, hbody]

private theorem sectionsFrom_map (h : ∀ g, ch' (e g) = ch g) (hl : ∀ c, e (lit c) = lit' c)
    (cs : List (Nat × List γ)) (md preamble : List γ) (starts : List Nat) :
    sectionsFrom ch' lit' (cs.map fun c => (c.1, c.2.map e)) (md.map e) (preamble.map e) starts =
      (sectionsFrom ch lit cs md preamble starts).map (Section.map e) := by
  induction starts generalizing preamble with
  | nil => rfl
  | cons start starts ih =>
    have hrest := ih []
    rw [List.map_nil] at hrest
    rw [sectionsFrom, sectionsFrom, List.map_cons, List.length_map, sectionAt_map h hl, hrest]

/-- The sections of a text do not depend on what else the glyphs know. -/
theorem splitByDieu_map (h : ∀ g, ch' (e g) = ch g) (hl : ∀ c, e (lit c) = lit' c) (isWord : Char → Bool)
    (md : List γ) :
    splitByDieu ch' lit' isWord (md.map e) = (splitByDieu ch lit isWord md).map (Section.map e) := by
  have hch : (md.map e).map ch' = md.map ch := by
    rw [List.map_map]
    exact List.map_congr_left fun g _ => h g
  have hpos : chuongPositions ch' isWord (md.map e) = (chuongPositions ch isWord md).map fun c =>
      (c.1, c.2.map e) := by
    rw [chuongPositions, chuongPositions, hch, List.map_map]
    refine List.map_congr_left fun k _ => ?_
    show (k.start, _) = (k.start, _)
    rw [← List.map_drop, ← List.map_take, map_strip h]
  rw [splitByDieu, splitByDieu, hch]
  cases (finditer (reDieu isWord) (md.map ch)).map Hit.start with
  | nil => rfl
  | cons start starts =>
    show sectionsFrom ch' lit' (chuongPositions ch' isWord (md.map e)) (md.map e)
      (strip ch' ((md.map e).take start)) (start :: starts) = _
    rw [hpos, ← List.map_take, map_strip h]
    exact sectionsFrom_map h hl _ _ _ _

end Erasure

/-- `_page_range_for`. -/
def pageRangeFor (text : List Char) : Option Nat × Option Nat :=
  let pages := (finditer rePage text).map fun h => int h.group
  (pages.min?, pages.max?)

/-- `_strip_page_markers`. -/
def stripPageMarkers (text : List Char) : List Char := strip id (remove rePage text)

/-- `chunks`, `idx` and `last_page`. -/
structure ChunkState where
  chunks : List Chunk
  idx : Nat
  lastPage : Option Nat
  deriving DecidableEq, Repr

/-- An optional text is absent when it is empty. -/
def orNone (text : List Char) : Option String := if text.isEmpty then none else some (.ofList text)

/-- `_emit`. -/
def emit (lib : ChunkerLib) (heading : Option String) (st : ChunkState) (text : List Char) : ChunkState :=
  let range := pageRangeFor text
  let pages := if range.2.isSome then range else (st.lastPage, st.lastPage)
  let text := stripPageMarkers text
  if text.isEmpty then { st with lastPage := pages.2 }
  else
    { chunks := st.chunks ++ [⟨st.idx, .ofList text, lib.countTokens text, heading, pages.1, pages.2⟩]
      idx := st.idx + 1
      lastPage := pages.2 }

/-- The text of a section, or of a piece of one. -/
def withHeading (heading text : List Char) : List Char :=
  if heading.isEmpty then text else heading ++ "\n\n".toList ++ text

/-- One round of the loop over the sections. -/
def emitSection (lib : ChunkerLib) (maxTokens overlapTokens : Nat) (st : ChunkState) (s : Section Char) :
    ChunkState :=
  let heading := s.heading id
  let text := withHeading heading s.body
  if lib.countTokens text ≤ maxTokens then emit lib (orNone heading) st text
  else ((lib.splitText maxTokens overlapTokens s.body).map (withHeading heading)).foldl
    (emit lib (orNone heading)) st

/-- The state before the first chunk. -/
def ChunkState.start : ChunkState := ⟨[], 0, none⟩

/-- `chunk_document`. -/
def chunkDocument (lib : ChunkerLib) (maxTokens overlapTokens : Nat) (parsed : ParseResult) : List Chunk :=
  let md := parsed.markdown.toList
  if isLegalDoc lib.isWord md then
    ((splitByDieu id id lib.isWord md).foldl (emitSection lib maxTokens overlapTokens) .start).chunks
  else ((lib.splitText maxTokens overlapTokens md).foldl (emit lib none) .start).chunks

/-- The chunks made so far are numbered from zero. -/
def ChunkState.Numbered (st : ChunkState) : Prop :=
  st.idx = st.chunks.length ∧ st.chunks.map Chunk.index = List.range st.idx

private theorem ChunkState.numbered_start : ChunkState.start.Numbered := ⟨rfl, rfl⟩

private theorem ChunkState.Numbered.emit {lib : ChunkerLib} {heading : Option String} {st : ChunkState}
    (h : st.Numbered) (text : List Char) : (emit lib heading st text).Numbered := by
  obtain ⟨hlen, hidx⟩ := h
  unfold LegalRag.emit
  by_cases ht : (stripPageMarkers text).isEmpty
  · rw [if_pos ht]
    exact ⟨hlen, hidx⟩
  · rw [if_neg ht]
    refine ⟨by simp [hlen], ?_⟩
    rw [List.range_succ, ← hidx]
    simp

private theorem ChunkState.Numbered.foldl {β : Type} {f : ChunkState → β → ChunkState}
    (hf : ∀ st b, st.Numbered → (f st b).Numbered) {st : ChunkState} (h : st.Numbered) (l : List β) :
    (l.foldl f st).Numbered := by
  induction l generalizing st with
  | nil => exact h
  | cons b l ih => exact ih (hf st b h)

private theorem ChunkState.Numbered.emitSection {lib : ChunkerLib} {maxTokens overlapTokens : Nat}
    {st : ChunkState}
    (h : st.Numbered) (s : Section Char) : (emitSection lib maxTokens overlapTokens st s).Numbered := by
  unfold LegalRag.emitSection
  by_cases hfit : lib.countTokens (withHeading (s.heading id) s.body) ≤ maxTokens
  · rw [if_pos hfit]
    exact h.emit _
  · rw [if_neg hfit]
    exact ChunkState.Numbered.foldl (fun st text hst => hst.emit text) h _

/-- The chunks of a document are numbered from zero. -/
theorem chunkDocument_index (lib : ChunkerLib) (maxTokens overlapTokens : Nat) (parsed : ParseResult) :
    (chunkDocument lib maxTokens overlapTokens parsed).map Chunk.index =
      List.range (chunkDocument lib maxTokens overlapTokens parsed).length := by
  have hnum : ∀ {st : ChunkState}, st.Numbered → st.chunks.map Chunk.index = List.range st.chunks.length := by
    intro st h
    rw [← h.1]
    exact h.2
  unfold chunkDocument
  by_cases hl : isLegalDoc lib.isWord parsed.markdown.toList
  · rw [if_pos hl]
    exact hnum (ChunkState.Numbered.foldl (fun st s hst => hst.emitSection s) ChunkState.numbered_start _)
  · rw [if_neg hl]
    exact hnum (ChunkState.Numbered.foldl (fun st text hst => hst.emit text) ChunkState.numbered_start _)

end LegalRag
