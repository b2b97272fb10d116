import LegalRag.Ingestion.Headings

/-!
# What the sections keep

Apart from spaces, a text is its preamble followed by the titles and bodies of its sections
(`split_conserves`).  A section is the text from a match of `_RE_DIEU` to the next one (`piecesAt`); its
first line becomes the title, the rest the body, so that nothing is lost or moved (`squeeze_sections`,
`squeeze_lines`).
-/

namespace LegalRag

open PyStr Regex

/-! ### Texts without their spaces -/

/-- A text with its spaces removed. -/
def squeeze (text : List Char) : List Char := text.filter fun c => !isSpace c

@[simp] theorem squeeze_nil : squeeze [] = [] := rfl

@[simp] theorem squeeze_append (s t : List Char) : squeeze (s ++ t) = squeeze s ++ squeeze t :=
  List.filter_append ..

private theorem squeeze_eq_nil_of_spaces {text : List Char} (h : ∀ c ∈ text, isSpace c) :
    squeeze text = [] := by
  unfold squeeze
  rw [List.filter_eq_nil_iff]
  intro c hc
  simp [h c hc]

@[simp] theorem squeeze_strip (text : List Char) : squeeze (strip id text) = squeeze text := by
  obtain ⟨a, b, htext, ha, hb⟩ := strip_split id text
  conv_rhs => rw [htext, squeeze_append, squeeze_append, squeeze_eq_nil_of_spaces ha,
    squeeze_eq_nil_of_spaces hb]
  simp

/-- What is left by `strip` is empty if there were only spaces. -/
private theorem strip_eq_nil_iff {text : List Char} : strip id text = [] ↔ squeeze text = [] := by
  constructor
  · intro h
    rw [← squeeze_strip, h, squeeze_nil]
  · intro h
    by_contra hne
    obtain ⟨c, hc⟩ := List.exists_mem_of_ne_nil _ hne
    have hspaces : ∀ c ∈ text, isSpace c := by simpa [squeeze] using h
    have hnil : lstrip id text = [] := List.dropWhile_eq_nil_iff.mpr hspaces
    rw [strip, hnil] at hc
    cases hc

/-- Only the end of the line is lost when a text is cut into its first line and the rest. -/
theorem squeeze_lines (text : List Char) :
    squeeze (firstLine id text) ++ squeeze (afterLine id text) = squeeze text := by
  have hsplit := List.takeWhile_append_dropWhile (p := fun c => decide (id c ≠ '\n')) (l := text)
  have hdrop : squeeze (afterLine id text) = squeeze (text.dropWhile fun c => decide (id c ≠ '\n')) := by
    unfold afterLine
    cases hrest : text.dropWhile fun c => decide (id c ≠ '\n') with
    | nil => rfl
    | cons c rest =>
      have hnewline : c = '\n' := by
        have hhead := List.head?_dropWhile_not (fun c => decide (id c ≠ '\n')) text
        rw [hrest] at hhead
        simpa using hhead
      rw [hnewline]
      rfl
  rw [hdrop, ← squeeze_append]
  exact congrArg squeeze hsplit

/-! ### The pieces of a text between given positions -/

/-- The pieces that begin at the given positions, each ending where the next one begins. -/
def piecesAt (md : List Char) : List Nat → List (List Char)
  | [] => []
  | start :: starts => (md.take (starts.headD md.length)).drop start :: piecesAt md starts

private theorem length_piecesAt (md : List Char) (starts : List Nat) :
    (piecesAt md starts).length = starts.length := by
  induction starts with
  | nil => rfl
  | cons start starts ih => rw [piecesAt, List.length_cons, ih, List.length_cons]

/-- The pieces make up the text. -/
private theorem flatten_piecesAt {md : List Char} {start : Nat} {starts : List Nat}
    (hsorted : (start :: starts).Pairwise (· < ·)) (hbound : ∀ s ∈ start :: starts, s ≤ md.length) :
    (piecesAt md (start :: starts)).flatten = md.drop start := by
  induction starts generalizing start with
  | nil => simp [piecesAt]
  | cons next starts ih =>
    obtain ⟨hlt, hsorted'⟩ := List.pairwise_cons.mp hsorted
    have hle : start ≤ next := Nat.le_of_lt (hlt next List.mem_cons_self)
    have hnext : next ≤ md.length := hbound next (by simp)
    rw [piecesAt, List.flatten_cons, ih hsorted' fun s hs => hbound s (List.mem_cons_of_mem _ hs)]
    show (md.take next).drop start ++ md.drop next = md.drop start
    have hlen : start ≤ (md.take next).length := by
      rw [List.length_take]
      omega
    rw [← List.drop_append_of_le_length hlen, List.take_append_drop]

/-- The text that a section keeps of a piece. -/
def bodyOf (text : List Char) : List Char := strip id (afterLine id (strip id text))

section Sections

variable {cs : List (Nat × List Char)} {md pre : List Char} {starts : List Nat}

private theorem length_sectionsFrom : (sectionsFrom id id cs md pre starts).length = starts.length := by
  induction starts generalizing pre with
  | nil => rfl
  | cons start starts ih => rw [sectionsFrom, List.length_cons, ih, List.length_cons]

/-- The titles are the first lines of the pieces. -/
private theorem titles_sections :
    (sectionsFrom id id cs md pre starts).map Section.title =
      (piecesAt md starts).map fun piece => strip id (firstLine id (strip id piece)) := by
  induction starts generalizing pre with
  | nil => rfl
  | cons start starts ih => rw [sectionsFrom, piecesAt, List.map_cons, List.map_cons, ih, sectionAt]

/-- The title and the body of a section are what its piece holds. -/
theorem squeeze_sections :
    List.zipWith (fun s body => squeeze (s.title ++ body)) (sectionsFrom id id cs md pre starts)
        ((piecesAt md starts).map bodyOf) = (piecesAt md starts).map squeeze := by
  induction starts generalizing pre with
  | nil => rfl
  | cons start starts ih =>
    rw [sectionsFrom, piecesAt, List.map_cons, List.zipWith_cons_cons, ih, List.map_cons]
    congr 1
    show squeeze (strip id (firstLine id (strip id _)) ++ bodyOf _) = _
    rw [squeeze_append, bodyOf, squeeze_strip, squeeze_strip, squeeze_lines, squeeze_strip]

/-- The section of a position, and the text it keeps. -/
private theorem getElem?_sections {i start : Nat} (h : starts[i]? = some start) :
    ∃ stop, (sectionsFrom id id cs md pre starts)[i]? =
        some (sectionAt id id cs (if i = 0 then pre else []) md start stop) ∧
      ((piecesAt md starts).map bodyOf)[i]? = some (bodyOf ((md.take stop).drop start)) := by
  induction starts generalizing i pre with
  | nil => cases h
  | cons first starts ih =>
    cases i with
    | zero =>
      obtain rfl := Option.some.inj h
      exact ⟨_, rfl, rfl⟩
    | succ i =>
      obtain ⟨stop, hsection, hbody⟩ := @ih [] i h
      refine ⟨stop, ?_, hbody⟩
      rw [ite_self] at hsection
      rw [if_neg (Nat.succ_ne_zero i)]
      exact hsection

end Sections

/-- The body is the text that is kept, after the preamble; the title stands in for an empty body. -/
private theorem squeeze_body (cs : List (Nat × List Char)) (pre md : List Char) (start stop : Nat) :
    let s := sectionAt id id cs pre md start stop
    let kept := squeeze (pre ++ bodyOf ((md.take stop).drop start))
    squeeze s.body = if kept = [] then squeeze s.title else kept := by
  dsimp only [sectionAt]
  generalize hs : strip id ((md.take stop).drop start) = s
  have hblank : squeeze (litText id "\n\n") = [] := rfl
  have hjoined : squeeze (if pre.isEmpty then afterLine id s
        else pre ++ litText id "\n\n" ++ afterLine id s) =
      squeeze (pre ++ bodyOf ((md.take stop).drop start)) := by
    rw [squeeze_append, bodyOf, hs, squeeze_strip]
    by_cases hpre : pre.isEmpty
    · rw [if_pos hpre, List.isEmpty_iff.mp hpre, squeeze_nil, List.nil_append]
    · rw [if_neg hpre, squeeze_append, squeeze_append, hblank, List.append_nil]
  generalize (if pre.isEmpty then afterLine id s else pre ++ litText id "\n\n" ++ afterLine id s) = joined
    at hjoined ⊢
  by_cases hempty : squeeze joined = []
  · have hstrip : (strip id joined).isEmpty := List.isEmpty_iff.mpr (strip_eq_nil_iff.mpr hempty)
    rw [← hjoined, if_pos hempty, if_pos hstrip, squeeze_strip]
  · have hstrip : ¬ (strip id joined).isEmpty := by
      intro h
      exact hempty (strip_eq_nil_iff.mp (List.isEmpty_iff.mp h))
    rw [← hjoined, if_neg hempty, if_neg hstrip, squeeze_strip]

/-! ### The chapter of a section -/

section Chapters

variable {isWord : Char → Bool} {md : List Char}

/-- The last match of `_RE_CHUONG` that begins at or before a position. -/
def lastChuong (isWord : Char → Bool) (md : List Char) (pos : Nat) : Option Hit :=
  ((finditer (reChuong isWord) md).filter fun k => k.start ≤ pos).getLast?

/-- `m.group(0).strip()`. -/
def hitText (md : List Char) (h : Hit) : List Char := strip id ((md.drop h.start).take h.length)

private theorem takeWhile_eq_filter {α : Type} {p : α → Bool} {l : List α}
    (h : l.Pairwise fun a b => p b → p a) : l.takeWhile p = l.filter p := by
  induction l with
  | nil => rfl
  | cons a l ih =>
    obtain ⟨hhead, htail⟩ := List.pairwise_cons.mp h
    by_cases ha : p a
    · rw [List.takeWhile_cons_of_pos ha, List.filter_cons_of_pos ha, ih htail]
    · have hnone : ∀ b ∈ l, ¬ p b := fun b hb hpb => ha (hhead b hb hpb)
      rw [List.takeWhile_cons_of_neg ha, List.filter_cons_of_neg ha, List.filter_eq_nil_iff.mpr hnone]

/-- The loop of `_chuong_at` stops at the first match after the position, as the matches are in order. -/
private theorem chuongAt_eq (pos : Nat) :
    chuongAt (chuongPositions id isWord md) pos = ((lastChuong isWord md pos).map (hitText md)).getD [] := by
  have hsorted : (finditer (reChuong isWord) md).Pairwise fun a b =>
      decide (b.start ≤ pos) = true → decide (a.start ≤ pos) = true := by
    refine (hitsFrom_sorted (reChuong isWord) 0 0 none md).imp fun h hb => ?_
    have hle : _ ≤ pos := of_decide_eq_true hb
    exact decide_eq_true (Nat.le_trans (Nat.le_of_lt h.1) hle)
  have hpositions : (chuongPositions id isWord md).takeWhile (fun c => decide (c.1 ≤ pos)) =
      ((finditer (reChuong isWord) md).filter fun k => k.start ≤ pos).map fun k =>
      (k.start, hitText md k) := by
    rw [← takeWhile_eq_filter hsorted, chuongPositions, List.map_id, List.takeWhile_map]
    rfl
  rw [chuongAt, hpositions, List.getLast?_map, Option.map_map]
  rfl

/-- The heading of a chapter is not blank. -/
private theorem hitText_ne_nil {k : Hit} (hk : k ∈ finditer (reChuong isWord) md) : hitText md k ≠ [] := by
  obtain ⟨a, b, m, rfl, hstart, hrun, hlen, -⟩ := mem_hitsFrom hk
  rw [Nat.zero_add] at hstart
  have heq : reChuong isWord = .lineStart :: .star isSpace ::
      ([fun c => "Cc".toList.contains c].map Atom.one ++
        (["Hh", "Ưư", "Ơơ", "Nn", "Gg"].map (fun s => .one fun c => s.toList.contains c) ++
        plus isSpace ++ .mark :: plus isNumeral ++ .mark :: .boundary isWord ::
          [.star (· ≠ '\n'), .lineEnd])) := rfl
  rw [heq] at hrun
  obtain ⟨ws, s, rfl, -, hrest⟩ := run_star (run_lineStart hrun).2
  obtain ⟨c, s', rfl, hc, hrest⟩ := run_one hrest
  obtain ⟨u, rfl⟩ := run_suffix hrest
  have hletter : isSpace c = false := by
    have hcases : c = 'C' ∨ c = 'c' := by simpa using hc
    rcases hcases with rfl | rfl <;> decide
  have hin : c ∈ hitText (a ++ (ws ++ c :: (u ++ m.rest))) k := by
    refine mem_strip ?_ hletter
    have htake : k.length = (ws ++ c :: u).length := by
      rw [hlen]
      simp only [List.length_append, List.length_cons]
      omega
    have hsplit : ws ++ c :: (u ++ m.rest) = (ws ++ c :: u) ++ m.rest := by simp
    rw [hstart, List.drop_left, hsplit, htake, List.take_left]
    simp
  exact List.ne_nil_of_mem hin

end Chapters

/-- The components of a heading: the chapter, if there is one, and the title. -/
private theorem heading_eq {s : Section Char} {pos : Nat} (htitle : s.title ≠ [])
    (hchuong : s.chuong = chuongAt (chuongPositions id isWord md) pos) :
    s.heading id =
      join (litText id " > ") (((lastChuong isWord md pos).map (hitText md)).toList ++ [s.title]) := by
  rw [chuongAt_eq] at hchuong
  rw [Section.heading, hchuong]
  cases hlast : lastChuong isWord md pos with
  | none => simp [htitle]
  | some k =>
    have hk : k ∈ finditer (reChuong isWord) md := List.mem_of_mem_filter (List.mem_of_getLast? hlast)
    simp [htitle, hitText_ne_nil hk]

/-! ### The sections of a text -/

/-- What a match of `_RE_DIEU` becomes: a heading of the chapter, if there is one, and the title; and a
body of the preamble and the text that is kept, which the title stands in for. -/
structure KeptSection (isWord : Char → Bool) (md preamble : List Char) (h : Hit) (s : Section Char)
    (body : List Char) : Prop where
  title : s.title ≠ []
  heading : s.heading id =
    join (litText id " > ") (((lastChuong isWord md h.start).map (hitText md)).toList ++ [s.title])
  body : squeeze s.body =
    if squeeze (preamble ++ body) = [] then squeeze s.title else squeeze (preamble ++ body)

/-- A text has a section for each match of `_RE_DIEU`, made of the piece from this match to the next one,
and together with the preamble these are all of the text. -/
structure Conserved (isWord : Char → Bool) (md preamble : List Char) (sections : List (Section Char))
    (bodies : List (List Char)) : Prop where
  sections_length : sections.length = (finditer (reDieu isWord) md).length
  bodies_length : bodies.length = (finditer (reDieu isWord) md).length
  titles : sections.map Section.title =
    (piecesAt md ((finditer (reDieu isWord) md).map Hit.start)).map fun piece =>
      strip id (firstLine id (strip id piece))
  pieces : List.zipWith (fun s body => squeeze (s.title ++ body)) sections bodies =
    (piecesAt md ((finditer (reDieu isWord) md).map Hit.start)).map squeeze
  text : squeeze md = squeeze preamble ++
    (List.zipWith (fun s body => squeeze (s.title ++ body)) sections bodies).flatten
  kept : ∀ i h s body, (finditer (reDieu isWord) md)[i]? = some h → sections[i]? = some s →
    bodies[i]? = some body → KeptSection isWord md (if i = 0 then preamble else []) h s body

/-- The preamble and the pieces between the matches are the text. -/
private theorem flatten_hits {isWord : Char → Bool} {md : List Char} {first : Hit} {hits : List Hit}
    (hhits : finditer (reDieu isWord) md = first :: hits) :
    md.take first.start ++ (piecesAt md ((finditer (reDieu isWord) md).map Hit.start)).flatten = md := by
  have hsorted : ((finditer (reDieu isWord) md).map Hit.start).Pairwise (· < ·) :=
    List.pairwise_map.mpr ((hitsFrom_sorted (reDieu isWord) 0 0 none md).imp And.left)
  have hbound : ∀ s ∈ (finditer (reDieu isWord) md).map Hit.start, s ≤ md.length := by
    intro s hs
    obtain ⟨h, hh, rfl⟩ := List.mem_map.mp hs
    have hle := (hit_bounds hh).2
    omega
  rw [hhits, List.map_cons] at hsorted hbound
  rw [hhits, List.map_cons, flatten_piecesAt hsorted hbound, List.take_append_drop]

/-- The sections of a text that the expression matches conserve it. -/
theorem split_conserves {isWord : Char → Bool} {md : List Char} {first : Hit}
    (hfirst : (finditer (reDieu isWord) md).head? = some first) :
    ∃ bodies, Conserved isWord md (md.take first.start) (splitByDieu id id isWord md) bodies := by
  obtain ⟨hits, hhits⟩ := List.head?_eq_some_iff.mp hfirst
  have hmatch : finditer (reDieu isWord) md ≠ [] := by
    rw [hhits]
    exact List.cons_ne_nil _ _
  have hsplit : splitByDieu id id isWord md = sectionsFrom id id (chuongPositions id isWord md) md
      (strip id (md.take first.start)) ((finditer (reDieu isWord) md).map Hit.start) := by
    rw [splitByDieu, List.map_id, hhits]
    rfl
  refine ⟨(piecesAt md ((finditer (reDieu isWord) md).map Hit.start)).map bodyOf, ?_, ?_, ?_, ?_, ?_, ?_⟩
  · rw [hsplit, length_sectionsFrom, List.length_map]
  · rw [List.length_map, length_piecesAt, List.length_map]
  · rw [hsplit, titles_sections]
  · rw [hsplit, squeeze_sections]
  · have hflat := congrArg squeeze (flatten_hits hhits)
    rw [squeeze_append] at hflat
    rw [hsplit, squeeze_sections]
    exact hflat.symm.trans (congrArg (squeeze (md.take first.start) ++ ·) List.filter_flatten)
  · intro i h s body hh hs hbody
    have hstart : ((finditer (reDieu isWord) md).map Hit.start)[i]? = some h.start := by
      rw [List.getElem?_map, hh]
      rfl
    obtain ⟨stop, hsection, hkept⟩ := getElem?_sections hstart
    have htitle : s.title ≠ [] := List.ne_nil_of_mem (mem_title_of_match hmatch (List.mem_of_getElem? hs))
    rw [hsplit, hsection] at hs
    obtain rfl := Option.some.inj hs
    rw [hkept] at hbody
    obtain rfl := Option.some.inj hbody
    refine ⟨htitle, ?_, ?_⟩
    · exact heading_eq htitle rfl
    · -- the preamble is stripped before it is put in front of the first body
      have hpreamble : squeeze ((if i = 0 then strip id (md.take first.start) else []) ++
          bodyOf ((md.take stop).drop h.start)) =
          squeeze ((if i = 0 then md.take first.start else []) ++ bodyOf ((md.take stop).drop h.start)) := by
        by_cases hi : i = 0
        · rw [if_pos hi, if_pos hi, squeeze_append, squeeze_append, squeeze_strip]
        · rw [if_neg hi, if_neg hi]
      rw [squeeze_body, hpreamble]

/-- A law of two articles, the second of them without a text. -/
def twoArticles : List Char := "Luật X\nChương I\nĐiều 1. A\nb\n\nĐiều 2. C".toList

theorem split_conserves_two : ∃ bodies, Conserved Char.isAlphanum twoArticles (twoArticles.take 16)
    (splitByDieu id id Char.isAlphanum twoArticles) bodies :=
  @split_conserves Char.isAlphanum twoArticles ⟨16, 9, ['1']⟩ (by decide)

end LegalRag
