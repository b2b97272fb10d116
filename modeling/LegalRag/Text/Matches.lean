import LegalRag.Text.Regex

/-!
# What a match says about the text

Inversion of `run`, atom by atom (`run_one`, `run_star`, ..), the matches that a repetition makes when it
is followed by something else (`run_star_append`), and what `finditer` lists: its hits are matches
(`mem_hitsFrom`) at increasing positions (`hitsFrom_sorted`).  A character that no atom takes is not
removed (`mem_removeFrom`).
-/

namespace Regex

variable {p : Char → Bool} {r : List Atom} {prev : Option Char} {s : List Char} {m : Match}

/-- The character before what follows `a`. -/
def lastOr (prev : Option Char) (a : List Char) : Option Char := a.getLast?.or prev

@[simp] theorem lastOr_nil : lastOr prev [] = prev := rfl

theorem lastOr_cons (c : Char) (a : List Char) : lastOr prev (c :: a) = lastOr (some c) a := by
  cases a with
  | nil => rfl
  | cons d a =>
    rw [lastOr, lastOr, List.getLast?_cons_cons]
    cases h : (d :: a).getLast? with
    | none => simp at h
    | some e => rfl

theorem lastOr_append (a b : List Char) : lastOr prev (a ++ b) = lastOr (lastOr prev a) b := by
  induction a generalizing prev with
  | nil => rfl
  | cons c a ih => rw [List.cons_append, lastOr_cons, lastOr_cons, ih]

/-! ### Inversion -/

theorem run_one (h : run (.one p :: r) prev s = some m) : ∃ c s', s = c :: s' ∧ p c ∧
    run r (some c) s' = some m := by
  cases s with
  | nil => cases h
  | cons c s' =>
    rw [run] at h
    by_cases hc : p c
    · rw [if_pos hc] at h
      exact ⟨c, s', rfl, hc, h⟩
    · rw [if_neg hc] at h
      cases h

private theorem mem_spans {x : Option Char × List Char} (h : x ∈ spans p prev s) :
    ∃ a, s = a ++ x.2 ∧ (∀ c ∈ a, p c) ∧ x.1 = lastOr prev a := by
  induction s generalizing prev with
  | nil =>
    obtain rfl : x = (prev, []) := by simpa [spans] using h
    exact ⟨[], rfl, by simp, rfl⟩
  | cons c s ih =>
    rw [spans] at h
    have hstay : x = (prev, c :: s) → ∃ a, c :: s = a ++ x.2 ∧ (∀ c ∈ a, p c) ∧ x.1 = lastOr prev a := by
      rintro rfl
      exact ⟨[], rfl, by simp, rfl⟩
    by_cases hc : p c
    · rw [if_pos hc, List.mem_append, List.mem_singleton] at h
      rcases h with h | h
      · obtain ⟨a, ha, hp, hx⟩ := ih h
        refine ⟨c :: a, by rw [ha, List.cons_append, ← ha], ?_, by rw [hx, lastOr_cons]⟩
        simpa [hc] using hp
      · exact hstay h
    · rw [if_neg hc, List.mem_singleton] at h
      exact hstay h

theorem run_star (h : run (.star p :: r) prev s = some m) :
    ∃ a b, s = a ++ b ∧ (∀ c ∈ a, p c) ∧ run r (lastOr prev a) b = some m := by
  obtain ⟨x, hx, hrun⟩ := List.exists_of_findSome?_eq_some h
  obtain ⟨a, ha, hp, hprev⟩ := mem_spans hx
  rw [hprev] at hrun
  exact ⟨a, x.2, ha, hp, hrun⟩

theorem run_plus (h : run (plus p ++ r) prev s = some m) :
    ∃ a b, s = a ++ b ∧ a ≠ [] ∧ (∀ c ∈ a, p c) ∧ run r (lastOr prev a) b = some m := by
  obtain ⟨c, s', rfl, hc, h⟩ := run_one h
  obtain ⟨a, b, rfl, ha, h⟩ := run_star h
  refine ⟨c :: a, b, rfl, by simp, ?_, ?_⟩
  · simpa [hc] using ha
  · rw [lastOr_cons]
    exact h

theorem run_lineStart (h : run (.lineStart :: r) prev s = some m) :
    (prev = none ∨ prev = some '\n') ∧ run r prev s = some m := by
  rw [run] at h
  by_cases hl : prev = none ∨ prev = some '\n'
  · rw [if_pos hl] at h
    exact ⟨hl, h⟩
  · rw [if_neg hl] at h
    cases h

theorem run_lineEnd (h : run (.lineEnd :: r) prev s = some m) :
    (s.head? = none ∨ s.head? = some '\n') ∧ run r prev s = some m := by
  rw [run] at h
  by_cases hl : s.head? = none ∨ s.head? = some '\n'
  · rw [if_pos hl] at h
    exact ⟨hl, h⟩
  · rw [if_neg hl] at h
    cases h

theorem run_boundary {word : Char → Bool} (h : run (.boundary word :: r) prev s = some m) :
    run r prev s = some m := by
  rw [run] at h
  by_cases hb : prev.any word ≠ s.head?.any word
  · rwa [if_pos hb] at h
  · rw [if_neg hb] at h
    cases h

theorem run_mark (h : run (.mark :: r) prev s = some m) : ∃ m', run r prev s = some m' ∧
    m = { m' with marks := s :: m'.marks } := by
  obtain ⟨m', hm, rfl⟩ := Option.map_eq_some_iff.mp h
  exact ⟨m', hm, rfl⟩

/-- A literal text is at the front. -/
theorem run_lit {t : List Char} (h : run (t.map (fun c => .one (· = c)) ++ r) prev s = some m) :
    ∃ b, s = t ++ b ∧ run r (lastOr prev t) b = some m := by
  induction t generalizing prev s with
  | nil => exact ⟨s, rfl, h⟩
  | cons c t ih =>
    obtain ⟨d, s', rfl, hd, hrun⟩ := run_one h
    obtain rfl : d = c := by simpa using hd
    obtain ⟨b, rfl, hb⟩ := ih hrun
    exact ⟨b, rfl, by rw [lastOr_cons]; exact hb⟩

/-- One character of each class in turn. -/
theorem run_classes {ps : List (Char → Bool)} (h : run (ps.map .one ++ r) prev s = some m) :
    ∃ a b, s = a ++ b ∧ (∀ c ∈ a, ∃ q ∈ ps, q c) ∧ run r (lastOr prev a) b = some m := by
  induction ps generalizing prev s with
  | nil => exact ⟨[], s, rfl, by simp, h⟩
  | cons q ps ih =>
    obtain ⟨c, s', rfl, hc, hrun⟩ := run_one h
    obtain ⟨a, b, rfl, ha, hb⟩ := ih hrun
    refine ⟨c :: a, b, rfl, ?_, by rw [lastOr_cons]; exact hb⟩
    intro d hd
    rcases List.mem_cons.mp hd with rfl | hd
    · exact ⟨q, List.mem_cons_self, hc⟩
    · obtain ⟨q', hq', hd'⟩ := ha d hd
      exact ⟨q', List.mem_cons_of_mem _ hq', hd'⟩

/-- A match takes a beginning of the text. -/
theorem run_suffix (h : run r prev s = some m) : ∃ a, s = a ++ m.rest := by
  induction r generalizing prev s m with
  | nil =>
    obtain rfl : (⟨s, []⟩ : Match) = m := by simpa [run] using h
    exact ⟨[], rfl⟩
  | cons at_ r ih =>
    cases at_ with
    | one p =>
      obtain ⟨c, s', rfl, -, h⟩ := run_one h
      obtain ⟨a, rfl⟩ := ih h
      exact ⟨c :: a, rfl⟩
    | star p =>
      obtain ⟨a, b, rfl, -, h⟩ := run_star h
      obtain ⟨a', rfl⟩ := ih h
      exact ⟨a ++ a', by rw [List.append_assoc]⟩
    | lineStart => exact ih (run_lineStart h).2
    | lineEnd => exact ih (run_lineEnd h).2
    | boundary word => exact ih (run_boundary h)
    | mark =>
      obtain ⟨m', hm, rfl⟩ := run_mark h
      obtain ⟨a, ha⟩ := ih hm
      exact ⟨a, ha⟩

/-! ### Making a match -/

private theorem run_one_pos {c : Char} (hc : p c) : run (.one p :: r) prev (c :: s) = run r (some c) s :=
  by rw [run, if_pos hc]

theorem run_lit_append (t : List Char) :
    run (t.map (fun c => .one (· = c)) ++ r) prev (t ++ s) = run r (lastOr prev t) s := by
  induction t generalizing prev with
  | nil => rfl
  | cons c t ih =>
    rw [List.map_cons, List.cons_append, List.cons_append, run_one_pos (by simp), ih, lastOr_cons]

private theorem spans_append (a : List Char) (ha : ∀ c ∈ a, p c) (hs : ∀ c ∈ s.head?, p c = false) :
    ∃ l, spans p prev (a ++ s) = (lastOr prev a, s) :: l := by
  induction a generalizing prev with
  | nil =>
    cases s with
    | nil => exact ⟨[], rfl⟩
    | cons c s => exact ⟨[], by rw [List.nil_append, spans, if_neg (by simp [hs c rfl])]; rfl⟩
  | cons c a ih =>
    obtain ⟨l, hl⟩ := @ih (some c) fun d hd => ha d (List.mem_cons_of_mem _ hd)
    refine ⟨l ++ [(prev, c :: (a ++ s))], ?_⟩
    rw [List.cons_append, spans, if_pos (ha c (List.mem_cons_self)), hl, lastOr_cons]
    rfl

/-- A repetition takes all it can, if what follows then matches. -/
theorem run_star_append {a : List Char} (ha : ∀ c ∈ a, p c) (hs : ∀ c ∈ s.head?, p c = false)
    (h : run r (lastOr prev a) s = some m) : run (.star p :: r) prev (a ++ s) = some m := by
  obtain ⟨l, hl⟩ := @spans_append _ prev _ a ha hs
  rw [run, hl, List.findSome?_cons, h]

theorem run_plus_append {a : List Char} (hne : a ≠ []) (ha : ∀ c ∈ a, p c) (hs : ∀ c ∈ s.head?, p c = false)
    (h : run r (lastOr prev a) s = some m) : run (plus p ++ r) prev (a ++ s) = some m := by
  cases a with
  | nil => exact absurd rfl hne
  | cons c a =>
    rw [plus, List.cons_append, List.cons_append, List.cons_append, run_one_pos (ha c List.mem_cons_self)]
    rw [lastOr_cons] at h
    exact run_star_append (fun d hd => ha d (List.mem_cons_of_mem _ hd)) hs h

/-- A repetition may take any beginning of the text that is of its class. -/
private theorem mem_spans_append (a : List Char) (ha : ∀ c ∈ a, p c) :
    (lastOr prev a, s) ∈ spans p prev (a ++ s) := by
  induction a generalizing prev with
  | nil =>
    cases s with
    | nil => exact List.mem_singleton.mpr rfl
    | cons c s =>
      rw [List.nil_append, spans]
      split <;> simp
  | cons c a ih =>
    rw [List.cons_append, spans, if_pos (ha c List.mem_cons_self), lastOr_cons]
    exact List.mem_append_left _ (ih fun d hd => ha d (List.mem_cons_of_mem _ hd))

/-- There is a match if there is one after some repetition. -/
theorem isSome_star {a : List Char} (ha : ∀ c ∈ a, p c) (h : (run r (lastOr prev a) s).isSome) :
    (run (.star p :: r) prev (a ++ s)).isSome := by
  rw [run, List.findSome?_isSome_iff]
  exact ⟨_, mem_spans_append a ha, h⟩

theorem isSome_plus {a : List Char} (hne : a ≠ []) (ha : ∀ c ∈ a, p c)
    (h : (run r (lastOr prev a) s).isSome) : (run (plus p ++ r) prev (a ++ s)).isSome := by
  obtain ⟨c, a, rfl⟩ := List.exists_cons_of_ne_nil hne
  rw [plus, List.cons_append, List.cons_append, List.cons_append, run_one_pos (ha c List.mem_cons_self)]
  rw [lastOr_cons] at h
  exact isSome_star (fun d hd => ha d (List.mem_cons_of_mem _ hd)) h

theorem isSome_mark : (run (.mark :: r) prev s).isSome = (run r prev s).isSome := by
  rw [run, Option.isSome_map]

/-- Spaces up to the end of a line: there is such a match wherever a line ends. -/
theorem run_star_lineEnd (hs : s.head? = none ∨ s.head? = some '\n') :
    ∃ n, n ≤ (s.takeWhile p).length ∧ run [.star p, .lineEnd] prev s = some ⟨s.drop n, []⟩ := by
  have hend : (run [.lineEnd] prev s).isSome := by
    rw [run, if_pos hs]
    rfl
  have hsome : (run [.star p, .lineEnd] prev s).isSome := @isSome_star p _ prev s [] (by simp) hend
  obtain ⟨m, hm⟩ := Option.isSome_iff_exists.mp hsome
  obtain ⟨a, b, rfl, ha, h⟩ := run_star hm
  obtain ⟨-, h⟩ := run_lineEnd h
  obtain rfl : (⟨b, []⟩ : Match) = m := by simpa [run] using h
  refine ⟨a.length, ?_, by rw [hm, List.drop_left]⟩
  rw [List.takeWhile_append_of_pos ha, List.length_append]
  omega

/-! ### The hits of `finditer` -/

theorem mem_hitsFrom {skip pos : Nat} {h : Hit} (hh : h ∈ hitsFrom r skip pos prev s) :
    ∃ a b m, s = a ++ b ∧ h.start = pos + a.length ∧ run r (lastOr prev a) b = some m ∧
      h.length = b.length - m.rest.length ∧ h.group = m.group := by
  induction s generalizing skip pos prev with
  | nil => cases skip <;> cases hh
  | cons c s ih =>
    have hrest : ∀ k, h ∈ hitsFrom r k (pos + 1) (some c) s → ∃ a b m, c :: s = a ++ b ∧
      h.start = pos + a.length ∧
        run r (lastOr prev a) b = some m ∧ h.length = b.length - m.rest.length ∧ h.group = m.group := by
      intro k hk
      obtain ⟨a, b, m, rfl, hstart, hrun, hlen⟩ := ih hk
      refine ⟨c :: a, b, m, rfl, ?_, by rwa [lastOr_cons], hlen⟩
      rw [hstart, List.length_cons]
      omega
    cases skip with
    | succ skip => exact hrest skip hh
    | zero =>
      rw [hitsFrom] at hh
      cases hrun : run r prev (c :: s) with
      | none =>
        rw [hrun] at hh
        exact hrest 0 hh
      | some m =>
        rw [hrun] at hh
        rcases List.mem_cons.mp hh with rfl | hh
        · exact ⟨[], c :: s, m, rfl, rfl, hrun, rfl, rfl⟩
        · exact hrest _ hh

/-- A hit lies in the text, after what is skipped. -/
theorem hit_bounds {skip pos : Nat} {h : Hit} (hh : h ∈ hitsFrom r skip pos prev s) :
    pos + skip ≤ h.start ∧ h.start + h.length ≤ pos + s.length := by
  constructor
  · induction s generalizing skip pos prev with
    | nil => cases skip <;> cases hh
    | cons c s ih =>
      cases skip with
      | succ skip =>
        have hle := ih hh
        omega
      | zero =>
        rw [hitsFrom] at hh
        cases hrun : run r prev (c :: s) with
        | none =>
          rw [hrun] at hh
          have hle := ih hh
          omega
        | some m =>
          rw [hrun] at hh
          rcases List.mem_cons.mp hh with rfl | hh
          · exact Nat.le_refl _
          · have hle := ih hh
            omega
  · obtain ⟨a, b, m, rfl, hstart, -, hlen, -⟩ := mem_hitsFrom hh
    rw [hstart, hlen, List.length_append]
    omega

/-- The hits come in the order of their positions and do not overlap. -/
theorem hitsFrom_sorted (r : List Atom) (skip pos : Nat) (prev : Option Char) (s : List Char) :
    (hitsFrom r skip pos prev s).Pairwise fun h h' => h.start < h'.start ∧ h.start + h.length ≤ h'.start := by
  induction s generalizing skip pos prev with
  | nil => cases skip <;> exact List.Pairwise.nil
  | cons c s ih =>
    cases skip with
    | succ skip => exact ih skip (pos + 1) (some c)
    | zero =>
      rw [hitsFrom]
      cases run r prev (c :: s) with
      | none => exact ih 0 (pos + 1) (some c)
      | some m =>
        refine List.Pairwise.cons ?_ (ih _ (pos + 1) (some c))
        intro h hh
        have hle := (hit_bounds hh).1
        constructor
        · show pos < h.start
          omega
        · show pos + ((c :: s).length - m.rest.length) ≤ h.start
          omega

/-- Where nothing is found, no match begins. -/
theorem run_of_no_hits {pos : Nat} (a : List Char) {b : List Char} (h : hitsFrom r 0 pos prev (a ++ b) = [])
    (hb : b ≠ []) : run r (lastOr prev a) b = none := by
  induction a generalizing pos prev with
  | nil =>
    obtain ⟨c, b, rfl⟩ := List.exists_cons_of_ne_nil hb
    cases hrun : run r prev (c :: b) with
    | none => exact hrun
    | some m =>
      rw [List.nil_append, hitsFrom, hrun] at h
      cases h
  | cons c a ih =>
    rw [lastOr_cons]
    rw [List.cons_append, hitsFrom] at h
    cases hrun : run r prev (c :: (a ++ b)) with
    | none =>
      rw [hrun] at h
      exact ih h
    | some m =>
      rw [hrun] at h
      cases h

/-! ### Cutting a text at its matches -/

/-- What stands before the first match, and the group of each match with what stands between it and the
next one, once `skip` characters are passed. -/
def cutFrom (r : List Atom) : Nat → Option Char → List Char → List Char × List (List Char × List Char)
  | _, _, [] => ([], [])
  | skip + 1, _, c :: s => cutFrom r skip (some c) s
  | 0, prev, c :: s =>
    match run r prev (c :: s) with
    | some m =>
      let rest := cutFrom r ((c :: s).length - m.rest.length - 1) (some c) s
      ([], (m.group, rest.1) :: rest.2)
    | none =>
      let rest := cutFrom r 0 (some c) s
      (c :: rest.1, rest.2)

/-- `r.split(s)`. -/
def cutAll (r : List Atom) (s : List Char) : List Char × List (List Char × List Char) :=
  cutFrom r 0 none s

/-- The text is cut where `finditer` finds its matches. -/
theorem cutFrom_groups (r : List Atom) (skip pos : Nat) (prev : Option Char) (s : List Char) :
    (cutFrom r skip prev s).2.map Prod.fst = (hitsFrom r skip pos prev s).map Hit.group := by
  induction s generalizing skip pos prev with
  | nil => cases skip <;> rfl
  | cons c s ih =>
    cases skip with
    | succ skip => exact ih skip (pos + 1) (some c)
    | zero =>
      rw [cutFrom, hitsFrom]
      cases run r prev (c :: s) with
      | none => exact ih 0 (pos + 1) (some c)
      | some m => exact congrArg (m.group :: ·) (ih _ (pos + 1) (some c))

/-- Characters that are skipped. -/
theorem cutFrom_skip (a : List Char) (k : Nat) :
    cutFrom r (a.length + k) prev (a ++ s) = cutFrom r k (lastOr prev a) s := by
  induction a generalizing prev with
  | nil => simp
  | cons c a ih =>
    have hlen : (c :: a).length + k = a.length + k + 1 := by
      rw [List.length_cons]
      omega
    rw [hlen, List.cons_append, cutFrom, ih, lastOr_cons]

/-! ### Characters that are not taken -/

/-- The atom does not take the character. -/
def Atom.Rejects (c : Char) : Atom → Prop
  | .one p | .star p => p c = false
  | .lineStart | .lineEnd | .boundary _ | .mark => True

instance (c : Char) : DecidablePred (Atom.Rejects c)
  | .one p | .star p => inferInstanceAs (Decidable (p c = false))
  | .lineStart | .lineEnd | .boundary _ | .mark => isTrue trivial

/-- No match contains a character that none of its atoms takes. -/
private theorem run_rejects {c : Char} (hr : ∀ a ∈ r, a.Rejects c) (h : run r prev s = some m) : ∃ a,
    s = a ++ m.rest ∧ c ∉ a := by
  induction r generalizing prev s m with
  | nil =>
    obtain rfl : (⟨s, []⟩ : Match) = m := by simpa [run] using h
    exact ⟨[], rfl, List.not_mem_nil⟩
  | cons at_ r ih =>
    have hrest : ∀ a ∈ r, a.Rejects c := fun a ha => hr a (List.mem_cons_of_mem at_ ha)
    have hfirst : at_.Rejects c := hr at_ (List.mem_cons_self ..)
    cases at_ with
    | one p =>
      obtain ⟨d, s', rfl, hd, h⟩ := run_one h
      obtain ⟨a, rfl, ha⟩ := ih hrest h
      refine ⟨d :: a, rfl, ?_⟩
      intro hc
      rcases List.mem_cons.mp hc with rfl | hc
      · rw [Atom.Rejects, hd] at hfirst
        cases hfirst
      · exact ha hc
    | star p =>
      obtain ⟨a, b, rfl, hp, h⟩ := run_star h
      obtain ⟨a', rfl, ha'⟩ := ih hrest h
      refine ⟨a ++ a', by rw [List.append_assoc], ?_⟩
      intro hc
      rcases List.mem_append.mp hc with hc | hc
      · have htaken := hp c hc
        rw [Atom.Rejects, htaken] at hfirst
        cases hfirst
      · exact ha' hc
    | lineStart => exact ih hrest (run_lineStart h).2
    | lineEnd => exact ih hrest (run_lineEnd h).2
    | boundary word => exact ih hrest (run_boundary h)
    | mark =>
      obtain ⟨m', hm, rfl⟩ := run_mark h
      obtain ⟨a, ha, hnot⟩ := ih hrest hm
      exact ⟨a, ha, hnot⟩

/-- Such a character stays when the matches, which are not empty, are removed. -/
theorem mem_removeFrom {c : Char} (hr : ∀ a ∈ r, a.Rejects c)
    (hne : ∀ prev s m, run r prev s = some m → m.rest ≠ s)
    {skip : Nat} (h : c ∈ s.drop skip) : c ∈ removeFrom r skip prev s := by
  induction s generalizing skip prev with
  | nil => simp at h
  | cons d s ih =>
    cases skip with
    | succ skip => exact ih h
    | zero =>
      rw [removeFrom]
      cases hrun : run r prev (d :: s) with
      | none =>
        rcases List.mem_cons.mp h with rfl | hmem
        · exact List.mem_cons_self ..
        · exact List.mem_cons_of_mem d (ih (show c ∈ s.drop 0 from hmem))
      | some m =>
        obtain ⟨a, ha, hnot⟩ := run_rejects hr hrun
        cases a with
        | nil => exact absurd ha.symm (hne prev (d :: s) m hrun)
        | cons d' a =>
          rw [List.cons_append, List.cons.injEq] at ha
          obtain ⟨rfl, rfl⟩ := ha
          have hskip : (d :: (a ++ m.rest)).length - m.rest.length - 1 = a.length := by
            rw [List.length_cons, List.length_append]
            omega
          refine ih ?_
          rw [hskip, List.drop_left]
          have hmem : c ∈ (d :: a) ++ m.rest := h
          exact (List.mem_append.mp hmem).resolve_left hnot

end Regex
