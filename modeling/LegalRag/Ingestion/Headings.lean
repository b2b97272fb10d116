import LegalRag.Ingestion.Citations

/-!
# Headings and the column they are stored in

`heading_path` of `document_chunks` has 1024 characters, and nothing cuts a heading.  The chunks of a
document fit exactly if the heading of every section with a chunk, which is a line and the line of its
chapter, is not longer (`chunksFit_iff`).
-/

namespace LegalRag

open PyStr Regex

/-- The rows of the chunks can be inserted for a document without rows: `heading_path` is `String(1024)`,
and the pairs of `document_id` and `chunk_index` are unique. -/
structure ChunksFit (chunks : List Chunk) : Prop where
  headings : ∀ c ∈ chunks, ∀ heading ∈ c.headingPath, heading.length ≤ 1024
  indices : (chunks.map Chunk.index).Nodup

/-- The line of the section and the line of its chapter, with `" > "` between them, have at most 1024
characters. -/
def HeadingFits (s : Section Char) : Prop :=
  s.chuong.length + (if s.chuong.isEmpty then 0 else 3) + s.title.length ≤ 1024

instance (s : Section Char) : Decidable (HeadingFits s) := inferInstanceAs (Decidable (_ ≤ _))

/-- Every section of a legal text for which a text is emitted has a heading that fits. -/
def LinesFit (lib : ChunkerLib) (maxTokens overlapTokens : Nat) (md : List Char) : Prop :=
  isLegalDoc lib.isWord md → ∀ s ∈ splitByDieu id id lib.isWord md,
    sectionTexts lib maxTokens overlapTokens s ≠ [] → HeadingFits s

/-! ### What a section begins with -/

section Titles

variable {isWord : Char → Bool} {md : List Char} {s : Section Char}

theorem mem_strip {c : Char} {text : List Char} (h : c ∈ text) (hc : isSpace c = false) :
    c ∈ strip id text := by
  obtain ⟨a, b, htext, ha, hb⟩ := strip_split id text
  have hnot : ¬ isSpace (id c) := by simp [hc]
  rw [htext, List.mem_append, List.mem_append] at h
  rcases h with (h | h) | h
  · exact absurd (ha c h) hnot
  · exact h
  · exact absurd (hb c h) hnot

private theorem lstrip_spaces {ws u : List Char} {c : Char} (hws : ∀ c ∈ ws, isSpace c)
    (hc : isSpace c = false) : lstrip id (ws ++ c :: u) = c :: u := by
  have hall : ∀ g ∈ ws, (fun g => isSpace (id g)) g = true := hws
  unfold lstrip
  rw [List.dropWhile_append_of_pos hall, List.dropWhile_cons_of_neg (by simpa using hc)]

/-- A character that is no space and stands after spaces only is in the first line. -/
private theorem mem_firstLine_strip {ws u : List Char} {c : Char} (hws : ∀ c ∈ ws, isSpace c)
    (hc : isSpace c = false) (hline : c ≠ '\n') : c ∈ strip id (firstLine id (strip id (ws ++ c :: u))) := by
  refine mem_strip ?_ hc
  have hhead : ∃ u', strip id (ws ++ c :: u) = c :: u' := by
    unfold strip
    rw [lstrip_spaces hws hc]
    have hprefix : rstrip id (c :: u) <+: c :: u := List.rdropWhile_prefix _ _
    cases hr : rstrip id (c :: u) with
    | nil =>
      have hspaces := List.rdropWhile_eq_nil_iff.mp hr c (List.mem_cons_self ..)
      rw [id, hc] at hspaces
      cases hspaces
    | cons d u' =>
      rw [hr] at hprefix
      obtain ⟨rfl, -⟩ := List.cons_prefix_cons.mp hprefix
      exact ⟨u', rfl⟩
  obtain ⟨u', hu'⟩ := hhead
  rw [hu']
  unfold firstLine
  rw [List.takeWhile_cons_of_pos (by simpa using hline)]
  exact List.mem_cons_self ..

/-- Where the expression matches, every title contains `Đ`. -/
theorem mem_title_of_match (hmatch : finditer (reDieu isWord) md ≠ [])
    (hs : s ∈ splitByDieu id id isWord md) : 'Đ' ∈ s.title := by
  have hch : md.map id = md := List.map_id md
  unfold splitByDieu at hs
  rw [hch] at hs
  obtain ⟨h, hs', hhits⟩ := List.exists_cons_of_ne_nil hmatch
  rw [hhits] at hs
  obtain ⟨before, after, hsplit⟩ := List.append_of_mem hs
  have hsorted := hitsFrom_sorted (reDieu isWord) 0 0 none md
  have hbounds : ∀ x ∈ finditer (reDieu isWord) md, x.start + x.length ≤ md.length :=
    fun x hx => by simpa using (hit_bounds hx).2
  rw [show hitsFrom (reDieu isWord) 0 0 none md = h :: hs' from hhits] at hsorted
  rw [hhits] at hbounds
  obtain ⟨k, hk, stop, rfl, hle, -, -⟩ := section_of_hits hsorted hbounds hsplit
  rw [← hhits] at hk
  obtain ⟨a, b, m, hab, hstart, hrun, hlen, -⟩ := mem_hitsFrom hk
  obtain ⟨-, ws, u, rfl, hws, hlt⟩ := run_reDieu hrun
  rw [Nat.zero_add] at hstart
  rw [← hlen] at hlt
  -- the text of the section begins with the match
  have htext : (md.take stop).drop k.start = ws ++ 'Đ' :: u.take (stop - k.start - ws.length - 1) := by
    obtain ⟨n, hn⟩ : ∃ n, stop - k.start - ws.length = n + 1 :=
      ⟨stop - k.start - ws.length - 1, by omega⟩
    rw [List.drop_take, hab, hstart, List.drop_left, ← hstart, List.take_append,
      List.take_of_length_le (by omega), hn]
    rfl
  show 'Đ' ∈ strip id (firstLine id (strip id ((md.take stop).drop k.start)))
  rw [htext]
  exact mem_firstLine_strip hws (by decide) (by decide)

/-- A section has no heading, or its title contains `Đ`. -/
private theorem mem_title (hs : s ∈ splitByDieu id id isWord md) :
    (s.chuong = [] ∧ s.title = []) ∨ 'Đ' ∈ s.title := by
  by_cases hmatch : finditer (reDieu isWord) md = []
  · left
    unfold splitByDieu at hs
    rw [List.map_id, hmatch] at hs
    obtain rfl := List.mem_singleton.mp hs
    exact ⟨rfl, rfl⟩
  · exact Or.inr (mem_title_of_match hmatch hs)

/-- The heading of a section has the length of its lines. -/
private theorem headingFits_iff (hs : s ∈ splitByDieu id id isWord md) :
    HeadingFits s ↔ (s.heading id).length ≤ 1024 := by
  have hlength : (s.heading id).length =
      s.chuong.length + (if s.chuong.isEmpty then 0 else 3) + s.title.length := by
    unfold Section.heading
    rcases mem_title hs with ⟨hchuong, htitle⟩ | htitle
    · rw [hchuong, htitle]
      rfl
    · have hne : s.title ≠ [] := List.ne_nil_of_mem htitle
      cases hchuong : s.chuong with
      | nil => simp [hne, join]
      | cons c cs =>
        have hsep : (litText id " > ").length = 3 := by decide
        simp [hne, join, hsep]
        omega
  unfold HeadingFits
  rw [hlength]

end Titles

/-! ### Which headings the chunks have -/

section Chunks

variable {lib : ChunkerLib} {maxTokens overlapTokens : Nat} {heading : Option String}

/-- A text in which `Đ` occurs is not made up of page markers. -/
private theorem stripPageMarkers_ne_nil {text : List Char} (h : 'Đ' ∈ text) : stripPageMarkers text ≠ [] := by
  have hreject : ∀ a ∈ rePage, a.Rejects 'Đ' := by
    decide
  have hne : ∀ prev s m, run rePage prev s = some m → m.rest ≠ s := by
    intro prev s m hrun heq
    rw [rePage_eq] at hrun
    obtain ⟨b, rfl, hrest⟩ := run_lit (run_lineStart hrun).2
    obtain ⟨a, ha⟩ := run_suffix hrest
    have hlen := congrArg List.length heq
    rw [ha] at hlen
    simp only [List.length_append, List.length_cons] at hlen
    omega
  have hmem : 'Đ' ∈ removeFrom rePage 0 none text := mem_removeFrom hreject hne h
  exact List.ne_nil_of_mem (mem_strip hmem (by decide))

private theorem mem_emit_headings {st : ChunkState} {text : List Char} {h : Option String} :
    h ∈ (emit lib heading st text).chunks.map Chunk.headingPath ↔
      h ∈ st.chunks.map Chunk.headingPath ∨ h = heading ∧ stripPageMarkers text ≠ [] := by
  unfold emit
  by_cases htext : (stripPageMarkers text).isEmpty
  · rw [if_pos htext]
    simp [List.isEmpty_iff.mp htext]
  · rw [if_neg htext]
    have hne : stripPageMarkers text ≠ [] := fun hnil => htext (List.isEmpty_iff.mpr hnil)
    simp [hne]

private theorem mem_foldl_headings {texts : List (List Char)} {st : ChunkState} {h : Option String} :
    h ∈ (texts.foldl (emit lib heading) st).chunks.map Chunk.headingPath ↔
      h ∈ st.chunks.map Chunk.headingPath ∨ h = heading ∧ ∃ text ∈ texts, stripPageMarkers text ≠ [] := by
  induction texts generalizing st with
  | nil => simp
  | cons text texts ih =>
    rw [List.foldl_cons, ih, mem_emit_headings, or_assoc, ← and_or_left]
    simp only [List.exists_mem_cons_iff]

/-- The headings of the chunks are those of the sections for which something is emitted that is no marker.
-/
private theorem mem_sections_headings {ss : List (Section Char)} {st : ChunkState} {h : Option String} :
    h ∈ (ss.foldl (emitSection lib maxTokens overlapTokens) st).chunks.map Chunk.headingPath ↔
      h ∈ st.chunks.map Chunk.headingPath ∨ ∃ s ∈ ss, h = orNone (s.heading id) ∧
        ∃ text ∈ sectionTexts lib maxTokens overlapTokens s, stripPageMarkers text ≠ [] := by
  induction ss generalizing st with
  | nil => simp
  | cons s ss ih =>
    rw [List.foldl_cons, ih, emitSection_eq, mem_foldl_headings]
    simp only [List.exists_mem_cons_iff]
    exact or_assoc

/-- Every text that is emitted for a section begins with its heading. -/
private theorem sectionTexts_heading {s : Section Char} {text : List Char}
    (h : text ∈ sectionTexts lib maxTokens overlapTokens s) :
    ∃ rest, text = withHeading (s.heading id) rest := by
  unfold sectionTexts at h
  by_cases hfit : lib.countTokens (withHeading (s.heading id) s.body) ≤ maxTokens
  · rw [if_pos hfit] at h
    exact ⟨s.body, List.mem_singleton.mp h⟩
  · rw [if_neg hfit] at h
    obtain ⟨piece, -, rfl⟩ := List.mem_map.mp h
    exact ⟨piece, rfl⟩

/-- A section with a heading has a chunk if a text is emitted for it. -/
private theorem emits_of_heading {isWord : Char → Bool} {md : List Char} {s : Section Char}
    (hs : s ∈ splitByDieu id id isWord md) (hne : s.heading id ≠ [])
    (htexts : sectionTexts lib maxTokens overlapTokens s ≠ []) :
    ∃ text ∈ sectionTexts lib maxTokens overlapTokens s, stripPageMarkers text ≠ [] := by
  obtain ⟨text, htext⟩ := List.exists_mem_of_ne_nil _ htexts
  refine ⟨text, htext, stripPageMarkers_ne_nil ?_⟩
  obtain ⟨rest, rfl⟩ := sectionTexts_heading htext
  have htitle : 'Đ' ∈ s.title := by
    rcases mem_title hs with ⟨hchuong, hnone⟩ | htitle
    · refine absurd ?_ hne
      unfold Section.heading
      rw [hchuong, hnone]
      rfl
    · exact htitle
  have hheading : 'Đ' ∈ s.heading id := by
    have hnil : s.title ≠ [] := List.ne_nil_of_mem htitle
    unfold Section.heading
    cases hchuong : s.chuong with
    | nil => simpa [hnil, join] using htitle
    | cons c cs => simp [hnil, join, htitle]
  unfold withHeading
  rw [if_neg (by simpa using hne)]
  exact List.mem_append_left _ (List.mem_append_left _ hheading)

end Chunks

section Document

variable {lib : ChunkerLib} {maxTokens overlapTokens : Nat} {parsed : ParseResult}

/-- The heading of a section with a chunk is the heading of the chunk. -/
private theorem linesFit_of_chunksFit (h : ChunksFit (chunkDocument lib maxTokens overlapTokens parsed)) :
    LinesFit lib maxTokens overlapTokens parsed.markdown.toList := by
  intro hlegal s hs htexts
  rw [headingFits_iff hs]
  by_cases hne : s.heading id = []
  · simp [hne]
  · have hmem : orNone (s.heading id) ∈ (chunkDocument lib maxTokens overlapTokens parsed).map
        Chunk.headingPath := by
      unfold chunkDocument
      rw [if_pos hlegal]
      exact mem_sections_headings.mpr (Or.inr ⟨s, hs, rfl, emits_of_heading hs hne htexts⟩)
    obtain ⟨c, hc, hheading⟩ := List.mem_map.mp hmem
    have hlen := h.headings c hc (.ofList (s.heading id)) (by simp [hheading, orNone, hne])
    simpa using hlen

private theorem heading_le_of_linesFit (h : LinesFit lib maxTokens overlapTokens parsed.markdown.toList)
    {c : Chunk} (hc : c ∈ chunkDocument lib maxTokens overlapTokens parsed) {heading : String}
    (hheading : heading ∈ c.headingPath) : heading.length ≤ 1024 := by
  have hmem : c.headingPath ∈ (chunkDocument lib maxTokens overlapTokens parsed).map Chunk.headingPath :=
    List.mem_map_of_mem hc
  unfold chunkDocument at hmem
  by_cases hlegal : isLegalDoc lib.isWord parsed.markdown.toList
  · rw [if_pos hlegal] at hmem
    rcases mem_sections_headings.mp hmem with hstart | ⟨s, hs, hpath, text, htext, -⟩
    · cases hstart
    · have hlen := (headingFits_iff hs).mp (h hlegal s hs (List.ne_nil_of_mem htext))
      rw [hpath, orNone] at hheading
      by_cases hne : (s.heading id).isEmpty
      · rw [if_pos hne] at hheading
        cases hheading
      · rw [if_neg hne] at hheading
        obtain rfl := Option.some.inj hheading
        simpa using hlen
  · rw [if_neg hlegal] at hmem
    rcases mem_foldl_headings.mp hmem with hstart | ⟨hpath, -⟩
    · cases hstart
    · rw [hpath] at hheading
      cases hheading

end Document

/-- The chunks of a document can be inserted exactly if the headings of its sections are not too long. -/
theorem chunksFit_iff (lib : ChunkerLib) (maxTokens overlapTokens : Nat) (parsed : ParseResult) :
    ChunksFit (chunkDocument lib maxTokens overlapTokens parsed) ↔
      LinesFit lib maxTokens overlapTokens parsed.markdown.toList := by
  constructor
  · exact linesFit_of_chunksFit
  · intro h
    refine ⟨fun c hc heading hheading => heading_le_of_linesFit h hc hheading, ?_⟩
    rw [chunkDocument_index]
    exact List.nodup_range

/-- A legal text with a line of more than a thousand characters. -/
def longLine : List Char := "Chương I\nĐiều 1. ".toList ++ List.replicate 1100 'a' ++
    "\nĐiều 2. b\nĐiều 3. c".toList

/-- Eight letters `a` are one token. -/
def aChunker : ChunkerLib := ⟨fun text => text.length / 8, fun _ _ text => [text], Char.isAlphanum⟩

/-- Nothing cuts a long line. -/
theorem not_always_chunksFit :
    ¬ ∀ (lib : ChunkerLib) (maxTokens overlapTokens : Nat) (parsed : ParseResult),
      ChunksFit (chunkDocument lib maxTokens overlapTokens parsed) := by
  intro h
  have hlines := linesFit_of_chunksFit (h aChunker 800 100 ⟨[⟨1, .ofList longLine⟩], .ofList longLine⟩)
  rw [String.toList_ofList] at hlines
  have hnot : isLegalDoc aChunker.isWord longLine = true ∧
      ¬ ∀ s ∈ splitByDieu id id aChunker.isWord longLine, sectionTexts aChunker 800 100 s ≠ [] →
      HeadingFits s := by
    decide +kernel
  exact hnot.2 (hlines hnot.1)

end LegalRag
