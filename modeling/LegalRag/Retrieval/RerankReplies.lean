import LegalRag.Retrieval.RerankCache
import LegalRag.Text.Replies

/-!
# Replies of the model to a rerank

`llm_rerank` takes an entry of the reply for whatever `int` and `float` accept, and catches three classes
of exceptions.  Which replies it handles as if only the proper entries were there is said in
`rerank_tolerates_iff`.
-/

namespace LegalRag

open Calls Prog Service

/-! ### Entries -/

/-- The entry has the id of one of `n` candidates, which is an integer, and a score, which is a finite
number. -/
def properEntry (n : Nat) : PyValue → Option (Nat × PyFloat)
  | .dict fields =>
    match PyValue.field? "id" fields, (PyValue.field? "score" fields).bind PyValue.number with
    | some (.int i), some q => if 0 ≤ i ∧ i < n then some (i.toNat, .finite q) else none
    | _, _ => none
  | _ => none

/-- The last score for a candidate. -/
def lastScore (entries : List (Nat × PyFloat)) (i : Nat) : Option PyFloat :=
  (entries.reverse.find? fun e => e.1 = i).map Prod.snd

section Setup

variable (x : RetrievalSetup)

/-- The scores of the proper entries of a reply. -/
def properScores (text : String) (n i : Nat) : Option PyFloat :=
  lastScore ((listUnder x.parse "ranked" text).filterMap (properEntry n)) i

/-- What `int` and `float` make of an entry. -/
def acceptedEntry (n : Nat) (r : PyValue) : Option (Nat × PyFloat) :=
  match scoreIn x r with
  | .ok (i, score) => if 0 ≤ i ∧ i < n then some (i.toNat, score) else none
  | .error _ => none

/-- The id of the entry is infinite, or the id is accepted and the score is an integer that is too large
for a float. -/
def Overflows (r : PyValue) : Prop :=
  ∃ fields, r = .dict fields ∧
    ((∃ negative, PyValue.field? "id" fields = some (.float (.infinite negative))) ∨
      (∃ v i, PyValue.field? "id" fields = some v ∧ v.toInt x.parse = .ok i) ∧
        ∃ k, PyValue.field? "score" fields = some (.int k) ∧ PyValue.floatOfInt k = none)

end Setup

section Entries

variable {x : RetrievalSetup} {n : Nat}

private theorem lastScore_cons (e : Nat × PyFloat) (es : List (Nat × PyFloat)) (i : Nat) :
    lastScore (e :: es) i = (lastScore es i).or (if e.1 = i then some e.2 else none) := by
  unfold lastScore
  rw [List.reverse_cons, List.find?_append]
  cases es.reverse.find? fun e => e.1 = i with
  | some e' => rfl
  | none =>
    by_cases he : e.1 = i
    · simp [he]
    · simp [he]

private theorem scoreAt_setScore (i j : Nat) (score : PyFloat) (ss : Scores) :
    scoreAt (setScore j score ss) i = if j = i then some score else scoreAt ss i := by
  have hfst : ∀ e : Nat × PyFloat, (if e.1 = j then (j, score) else e).1 = e.1 := by
    intro e
    by_cases he : e.1 = j
    · rw [if_pos he, he]
    · rw [if_neg he]
  unfold setScore scoreAt
  by_cases hany : (ss.any fun e => e.1 = j) = true
  · rw [if_pos hany, List.find?_map]
    have hsame : (fun e : Nat × PyFloat => decide (e.1 = i)) ∘ (fun e => if e.1 = j then (j, score) else e) =
        fun e => decide (e.1 = i) := by
      funext e
      exact congrArg (fun k => decide (k = i)) (hfst e)
    rw [hsame]
    cases hfind : ss.find? fun e => e.1 = i with
    | none =>
      have hne : j ≠ i := by
        rintro rfl
        obtain ⟨e, he, hej⟩ := List.any_eq_true.mp hany
        exact List.find?_eq_none.mp hfind e he hej
      rw [if_neg hne]
      rfl
    | some e =>
      have he : e.1 = i := by simpa using List.find?_some hfind
      by_cases hji : j = i
      · simp [he, hji]
      · have hej : e.1 ≠ j := fun h => hji (h.symm.trans he)
        simp [hej, hji]
  · rw [if_neg hany, List.find?_append]
    by_cases hji : j = i
    · have hnone : (ss.find? fun e => e.1 = i) = none := by
        refine List.find?_eq_none.mpr fun e he hei => hany ?_
        exact List.any_eq_true.mpr ⟨e, he, by simpa [hji] using hei⟩
      simp [hnone, hji]
    · simp [hji]

private theorem toInt_unskipped {text : PyText} {v : PyValue} {e : PyErr} (h : v.toInt text = .error e) :
    e.kind.skipped = false ↔ ∃ negative, v = .float (.infinite negative) := by
  cases v with
  | float f =>
    cases f with
    | finite q => cases h
    | infinite negative =>
      obtain rfl := Except.error.inj h
      simp [PyErrKind.skipped]
    | nan =>
      obtain rfl := Except.error.inj h
      simp [PyErrKind.skipped]
  | str s =>
    simp only [PyValue.toInt] at h
    split at h
    · cases h
    · obtain rfl := Except.error.inj h
      simp [PyErrKind.skipped]
  | bool b => cases h
  | int k => cases h
  | _ =>
    obtain rfl := Except.error.inj h
    simp [PyErrKind.skipped]

private theorem toFloat_unskipped {text : PyText} {v : PyValue} {e : PyErr} (h : v.toFloat text = .error e) :
    e.kind.skipped = false ↔ ∃ k, v = .int k ∧ PyValue.floatOfInt k = none := by
  cases v with
  | int k =>
    cases hk : PyValue.floatOfInt k with
    | some q =>
      rw [PyValue.toFloat_int, hk] at h
      cases h
    | none =>
      rw [PyValue.toFloat_int, hk] at h
      obtain rfl := Except.error.inj h
      exact iff_of_true rfl ⟨k, rfl, hk⟩
  | str s =>
    simp only [PyValue.toFloat] at h
    split at h
    · cases h
    · obtain rfl := Except.error.inj h
      simp [PyErrKind.skipped]
  | bool b => cases h
  | float f => cases h
  | _ =>
    obtain rfl := Except.error.inj h
    simp [PyErrKind.skipped]

section Read

variable {fields : List (String × PyValue)} {v w : PyValue} {i : Int}

private theorem scoreIn_noId (hid : PyValue.field? "id" fields = none) : ∃ e,
    scoreIn x (.dict fields) = .error e ∧ e.kind = .keyError := by
  refine ⟨⟨.keyError, "'" ++ "id" ++ "'"⟩, ?_, rfl⟩
  unfold scoreIn
  rw [PyValue.item_dict, hid]
  rfl

private theorem scoreIn_idError {e : PyErr} (hid : PyValue.field? "id" fields = some v)
    (hi : v.toInt x.parse = .error e) : scoreIn x (.dict fields) = .error e := by
  unfold scoreIn
  rw [PyValue.item_dict, hid]
  show (v.toInt x.parse >>= _) = _
  rw [hi]
  rfl

private theorem scoreIn_noScore (hid : PyValue.field? "id" fields = some v) (hi : v.toInt x.parse = .ok i)
    (hscore : PyValue.field? "score" fields = none) : ∃ e, scoreIn x (.dict fields) = .error e ∧
    e.kind = .keyError := by
  refine ⟨⟨.keyError, "'" ++ "score" ++ "'"⟩, ?_, rfl⟩
  unfold scoreIn
  rw [PyValue.item_dict, hid]
  show (v.toInt x.parse >>= _) = _
  rw [hi, PyValue.item_dict, hscore]
  rfl

/-- An object with an id that is accepted, and a score. -/
private theorem scoreIn_both (hid : PyValue.field? "id" fields = some v) (hi : v.toInt x.parse = .ok i)
    (hscore : PyValue.field? "score" fields = some w) :
    scoreIn x (.dict fields) = (w.toFloat x.parse).map fun score => (i, score) := by
  unfold scoreIn
  rw [PyValue.item_dict, hid]
  show (v.toInt x.parse >>= _) = _
  rw [hi, PyValue.item_dict, hscore]
  show (w.toFloat x.parse >>= fun score => pure (i, score)) = _
  cases w.toFloat x.parse with
  | error e => rfl
  | ok score => rfl

end Read

/-- An entry overflows if it makes the loop raise. -/
private theorem overflows_iff {r : PyValue} :
    Overflows x r ↔ ∃ e, scoreIn x r = .error e ∧ e.kind.skipped = false := by
  cases r with
  | dict fields =>
    have hdict : Overflows x (.dict fields) ↔
      (∃ negative, PyValue.field? "id" fields = some (.float (.infinite negative))) ∨
        (∃ v i, PyValue.field? "id" fields = some v ∧ v.toInt x.parse = .ok i) ∧
          ∃ k, PyValue.field? "score" fields = some (.int k) ∧ PyValue.floatOfInt k = none := by
      constructor
      · rintro ⟨fields', heq, h⟩
        cases heq
        exact h
      · exact fun h => ⟨fields, rfl, h⟩
    have hkey : ∀ e : PyErr, e.kind = .keyError → e.kind.skipped = true := by
      intro e he
      rw [he]
      rfl
    rw [hdict]
    cases hid : PyValue.field? "id" fields with
    | none =>
      obtain ⟨e, he, hkind⟩ := scoreIn_noId (x := x) hid
      rw [he]
      simp [hkey e hkind]
    | some v =>
      cases hi : v.toInt x.parse with
      | error e =>
        have hkind := toInt_unskipped hi
        rw [scoreIn_idError hid hi]
        simp [hi, ← hkind]
      | ok i =>
        have hfinite : ∀ negative, v ≠ .float (.infinite negative) := by
          rintro negative rfl
          cases hi
        cases hscore : PyValue.field? "score" fields with
        | none =>
          obtain ⟨e, he, hkind⟩ := scoreIn_noScore hid hi hscore
          rw [he]
          simp [hkey e hkind, hfinite]
        | some w =>
          rw [scoreIn_both hid hi hscore]
          cases hw : w.toFloat x.parse with
          | error e =>
            have hkind := toFloat_unskipped hw
            simp [Except.map, hi, hfinite, hkind]
          | ok score =>
            have hfits : ∀ k, w = .int k → PyValue.floatOfInt k ≠ none := by
              rintro k rfl hk
              rw [PyValue.toFloat_int, hk] at hw
              cases hw
            simpa [Except.map, hi, hfinite] using hfits
  | _ =>
    refine iff_of_false ?_ ?_
    · rintro ⟨fields, heq, -⟩
      cases heq
    · rintro ⟨e, he, hskip⟩
      obtain rfl := Except.error.inj he
      cases hskip

/-- The entries that are accepted make up the scores. -/
private theorem scoreAt_scoresIn {rs : List PyValue} {ss ss' : Scores}
    (h : scoresIn x n ss rs = .ok ss') (i : Nat) :
    scoreAt ss' i = (lastScore (rs.filterMap (acceptedEntry x n)) i).or (scoreAt ss i) := by
  induction rs generalizing ss with
  | nil =>
    obtain rfl := Except.ok.inj h
    rfl
  | cons r rs ih =>
    unfold scoresIn at h
    cases hr : scoreIn x r with
    | error e =>
      have hnone : acceptedEntry x n r = none := by
        unfold acceptedEntry
        rw [hr]
      rw [hr] at h
      rw [List.filterMap_cons_none hnone]
      by_cases hskip : e.kind.skipped = true
      · simp only [if_pos hskip] at h
        exact ih h
      · simp only [if_neg hskip] at h
        cases h
    | ok found =>
      obtain ⟨j, score⟩ := found
      rw [hr] at h
      have hrest := ih h
      unfold addScore at hrest
      by_cases hrange : 0 ≤ j ∧ j < n
      · have hsome : acceptedEntry x n r = some (j.toNat, score) := by
          unfold acceptedEntry
          rw [hr]
          exact if_pos hrange
        rw [List.filterMap_cons_some hsome, lastScore_cons, hrest, if_pos hrange, scoreAt_setScore]
        by_cases hj : j.toNat = i
        · simp [hj]
        · simp [hj]
      · have hnone : acceptedEntry x n r = none := by
          unfold acceptedEntry
          rw [hr]
          exact if_neg hrange
        rw [List.filterMap_cons_none hnone, hrest, if_neg hrange]

private theorem scoresIn_ok_iff {rs : List PyValue} {ss : Scores} :
    (∃ ss', scoresIn x n ss rs = .ok ss') ↔ ∀ r ∈ rs, ¬ Overflows x r := by
  induction rs generalizing ss with
  | nil => simp [scoresIn]
  | cons r rs ih =>
    rw [List.forall_mem_cons, overflows_iff]
    unfold scoresIn
    cases hr : scoreIn x r with
    | ok found =>
      obtain ⟨j, score⟩ := found
      simpa using ih
    | error e =>
      cases hskip : e.kind.skipped with
      | true => simpa [hskip] using ih
      | false => simp [hskip]

end Entries

/-! ### Results -/

section Results

variable {hits : List SearchHit} {f g : Nat → Option PyFloat} {topK : Int}

private theorem materializeFloats_congr (h : ∀ i < hits.length, f i = g i) :
    materializeFloats hits f topK = materializeFloats hits g topK := by
  have hmap : hits.zipIdx.map (rankedHit f) = hits.zipIdx.map (rankedHit g) := by
    refine List.map_congr_left fun a ha => ?_
    have hlt : a.2 < hits.length := (List.getElem?_eq_some_iff.mp (List.mem_zipIdx_iff_getElem?.mp ha)).1
    unfold rankedHit
    rw [h a.2 hlt]
  unfold materializeFloats
  rw [hmap]

/-- If nothing is cut off, all hits are in the result. -/
private theorem mem_materializeFloats {n : Nat} (hn : hits.length = n) {r : RankedHit} :
    r ∈ materializeFloats hits f n ↔ ∃ h i, hits[i]? = some h ∧ r = rankedHit f (h, i) := by
  have hall : materializeFloats hits f n = (hits.zipIdx.map (rankedHit f)).insertionSort fun a b =>
      ¬ a.score.lt b.score := by
    unfold materializeFloats Redis.sliceTo Redis.position
    refine List.take_of_length_le ?_
    rw [(List.perm_insertionSort _ _).length_eq, List.length_map, List.length_zipIdx, if_neg (by omega)]
    omega
  rw [hall, (List.perm_insertionSort _ _).mem_iff, List.mem_map]
  constructor
  · rintro ⟨a, ha, rfl⟩
    exact ⟨a.1, a.2, List.mem_zipIdx_iff_getElem?.mp ha, rfl⟩
  · rintro ⟨h, i, hi, rfl⟩
    exact ⟨(h, i), List.mem_zipIdx_iff_getElem?.mpr hi, rfl⟩

/-- A hit with its own place in the document. -/
def probeHit (score : ℚ) (i : Nat) : SearchHit :=
  ⟨toString i, score, "d", "Luật", i, none, none, none, "Điều"⟩

def probeHits (n : Nat) (score : ℚ) : List SearchHit := (List.range n).map (probeHit score)

private theorem length_probeHits (n : Nat) (score : ℚ) : (probeHits n score).length = n := by
  unfold probeHits
  rw [List.length_map, List.length_range]

private theorem getElem?_probeHits {n : Nat} {score : ℚ} {i : Nat} {h : SearchHit} :
    (probeHits n score)[i]? = some h ↔ i < n ∧ probeHit score i = h := by
  unfold probeHits
  rw [List.getElem?_map]
  by_cases hi : i < n
  · rw [List.getElem?_range hi]
    simp [hi]
  · rw [List.getElem?_eq_none (by simpa using hi)]
    simp [hi]

/-- Some score of the search is such that half of it is not a given score. -/
private theorem exists_fallback (a b : Option PyFloat) :
    ∃ q : ℚ, a.getD (.finite (q * (1 / 2))) = b.getD (.finite (q * (1 / 2))) → a = b := by
  have havoid : ∀ s : PyFloat, ∃ q : ℚ, s ≠ .finite (q * (1 / 2)) := by
    intro s
    by_cases hs : s = .finite 0
    · refine ⟨2, ?_⟩
      rw [hs]
      decide +kernel
    · refine ⟨0, ?_⟩
      rw [zero_mul]
      exact hs
  cases a with
  | none =>
    cases b with
    | none => exact ⟨0, fun _ => rfl⟩
    | some s =>
      obtain ⟨q, hq⟩ := havoid s
      exact ⟨q, fun h => absurd h.symm hq⟩
  | some s =>
    cases b with
    | none =>
      obtain ⟨q, hq⟩ := havoid s
      exact ⟨q, fun h => absurd h hq⟩
    | some s' => exact ⟨0, fun h => congrArg some h⟩

/-- Scores that give the same results for all hits are the same. -/
private theorem eq_of_materializeFloats {n : Nat}
    (h : ∀ score, materializeFloats (probeHits n score) f n = materializeFloats (probeHits n score) g n)
    {i : Nat} (hi : i < n) : f i = g i := by
  obtain ⟨q, hq⟩ := exists_fallback (f i) (g i)
  have hmem : rankedHit f (probeHit q i, i) ∈ materializeFloats (probeHits n q) f n :=
    (mem_materializeFloats (length_probeHits n q)).mpr ⟨_, i, getElem?_probeHits.mpr ⟨hi, rfl⟩, rfl⟩
  rw [h] at hmem
  obtain ⟨hit, j, hj, heq⟩ := (mem_materializeFloats (length_probeHits n q)).mp hmem
  obtain ⟨-, rfl⟩ := getElem?_probeHits.mp hj
  have hij : i = j := by
    have hindex : (probeHit q i).chunkIndex = (probeHit q j).chunkIndex :=
      congrArg (fun r => r.hit.chunkIndex) heq
    exact Int.ofNat.inj hindex
  subst hij
  have hscore : (rankedHit f (probeHit q i, i)).score = (rankedHit g (probeHit q i, i)).score :=
    congrArg RankedHit.score heq
  exact hq hscore

end Results

/-! ### Replies -/

section Tolerates

variable (x : RetrievalSetup) (content : Option String) (n : Nat)

/-- With this reply and `n` hits, a call that does not find scores in the cache returns what the proper
entries of the reply give. -/
def RerankTolerates : Prop :=
  ∀ (up : Upstream) (host : Nat) (w : LlmWorld) (query : String) (hits : List SearchHit) (topK : Int)
    (useCache : Bool) (resp : ChatCompletion), hits.length = n →
    (useCache → w.redis (llmRerankKey x query hits) = none) →
      ((complete x.sha256 x.llm (rerankCall x query hits topK)).exec (llmReply up host) w).1 = .ok resp →
        resp.choices.head? = some content →
          ((llmRerank x query hits topK useCache).exec (llmReply up host) w).1 =
            .ok (materializeFloats hits (properScores x (replyBody content) n) topK)

/-- The loop over the entries runs, none of them overflows, and for every candidate the last entry that is
accepted has the score of the last proper one. -/
structure RerankReadable : Prop where
  loop : Loopable x.parse "ranked" (replyBody content)
  fits : ∀ r ∈ listUnder x.parse "ranked" (replyBody content), ¬ Overflows x r
  last : ∀ i < n, lastScore ((listUnder x.parse "ranked" (replyBody content)).filterMap
    (acceptedEntry x n)) i = properScores x (replyBody content) n i

end Tolerates

section Iff

variable {x : RetrievalSetup} {content : Option String} {n : Nat} {resp : ChatCompletion}

private theorem scoresOf_reply (h : resp.choices.head? = some content) :
    scoresOf x n resp = ofPy (looped x.parse "ranked" (replyBody content)) >>= fun entries =>
      ofPy (scoresIn x n [] entries) := by
  obtain ⟨rest, hrest⟩ := List.head?_eq_some_iff.mp h
  unfold scoresOf replyText
  rw [hrest]
  rfl

/-- The characters of a string and the keys of an object are no entries. -/
private theorem not_overflows_str (s : String) : ¬ Overflows x (.str s) := by
  rintro ⟨fields, heq, -⟩
  cases heq

private theorem acceptedEntry_strings (ss : List String) :
    (ss.map PyValue.str).filterMap (acceptedEntry x n) = [] := by
  induction ss with
  | nil => rfl
  | cons s ss ih => exact ih

/-- The scores that are accepted. -/
private theorem scoresOf_ok (h : resp.choices.head? = some content) {ss : Scores}
    (hss : scoresOf x n resp = .ok ss) :
    Loopable x.parse "ranked" (replyBody content) ∧
    (∀ r ∈ listUnder x.parse "ranked" (replyBody content), ¬ Overflows x r) ∧
      ∀ i, scoreAt ss i = lastScore ((listUnder x.parse "ranked" (replyBody content)).filterMap
        (acceptedEntry x n)) i := by
  rw [scoresOf_reply h] at hss
  cases hentries : looped x.parse "ranked" (replyBody content) with
  | error e =>
    rw [hentries] at hss
    cases hss
  | ok entries =>
    have hloop : Loopable x.parse "ranked" (replyBody content) := looped_ok_iff.mp ⟨entries, hentries⟩
    obtain rfl := Except.ok.inj (hentries.symm.trans (looped_eq hloop))
    rw [hentries] at hss
    obtain ⟨ss', hss', rfl⟩ : ∃ ss', scoresIn x n [] _ = .ok ss' ∧ ss' = ss := by
      cases hin : scoresIn x n [] (listUnder x.parse "ranked" (replyBody content) ++
          (stringsUnder x.parse "ranked" (replyBody content)).map .str) with
      | error e =>
        have herror : ofPy (scoresIn x n [] (listUnder x.parse "ranked" (replyBody content) ++
          (stringsUnder x.parse "ranked" (replyBody content)).map .str)) = .ok ss := hss
        rw [hin] at herror
        cases herror
      | ok ss' =>
        have hok : ofPy (scoresIn x n [] (listUnder x.parse "ranked" (replyBody content) ++
          (stringsUnder x.parse "ranked" (replyBody content)).map .str)) = .ok ss := hss
        rw [hin] at hok
        exact ⟨ss', hin, Except.ok.inj hok⟩
    refine ⟨hloop, ?_, ?_⟩
    · intro r hr
      exact scoresIn_ok_iff.mp ⟨_, hss'⟩ r (List.mem_append_left _ hr)
    · intro i
      rw [scoreAt_scoresIn hss', List.filterMap_append, acceptedEntry_strings, List.append_nil]
      exact Option.or_none

private theorem scoresOf_of_readable (h : resp.choices.head? = some content)
    (hloop : Loopable x.parse "ranked" (replyBody content))
    (hfits : ∀ r ∈ listUnder x.parse "ranked" (replyBody content), ¬ Overflows x r) : ∃ ss,
    scoresOf x n resp = .ok ss := by
  have hall : ∀ r ∈ listUnder x.parse "ranked" (replyBody content) ++
      (stringsUnder x.parse "ranked" (replyBody content)).map .str, ¬ Overflows x r := by
    intro r hr
    rcases List.mem_append.mp hr with hlist | hstring
    · exact hfits r hlist
    · obtain ⟨s, -, rfl⟩ := List.mem_map.mp hstring
      exact not_overflows_str s
  obtain ⟨ss, hss⟩ : ∃ ss, scoresIn x n [] (listUnder x.parse "ranked" (replyBody content) ++
      (stringsUnder x.parse "ranked" (replyBody content)).map .str) = .ok ss := scoresIn_ok_iff.mpr hall
  refine ⟨ss, ?_⟩
  rw [scoresOf_reply h, looped_eq hloop]
  show ofPy (scoresIn x n [] _) = _
  rw [hss]
  rfl

/-- What the call returns. -/
private theorem llmRerank_reply {up : Upstream} {host : Nat} {w : LlmWorld} {query : String}
    {hits : List SearchHit} {topK : Int} {useCache : Bool} (h2 : 2 ≤ hits.length)
    (hmiss : useCache → w.redis (llmRerankKey x query hits) = none)
    (hcomplete : ((complete x.sha256 x.llm (rerankCall x query hits topK)).exec (llmReply up host) w).1 =
    .ok resp) :
    ((llmRerank x query hits topK useCache).exec (llmReply up host) w).1 =
    rankBy hits topK (scoresOf x hits.length resp) := by
  have hscores : ((llmScores x query hits topK).exec (llmReply up host) w).1 =
      scoresOf x hits.length resp := by
    rw [llmScores_exec, hcomplete]
    rfl
  show ((rerankThrough (llmRerankKey x query hits) (llmScores x query hits topK) hits topK useCache).exec
    (llmReply up host) w).1 = _
  rw [rerankThrough_miss h2 hmiss, hscores]

private theorem rerank_tolerates (hn : 2 ≤ n) (h : RerankReadable x content n) :
    RerankTolerates x content n := by
  intro up host w query hits topK useCache resp hlength hmiss hcomplete hhead
  obtain ⟨ss, hss⟩ := scoresOf_of_readable (n := n) hhead h.loop h.fits
  obtain ⟨-, -, hscores⟩ := scoresOf_ok hhead hss
  rw [llmRerank_reply (hlength ▸ hn) hmiss hcomplete, hlength, hss, rankBy_of_two (hlength ▸ hn)]
  refine congrArg Except.ok (materializeFloats_congr fun i hi => ?_)
  rw [hscores i, h.last i (hlength ▸ hi)]

/-- A model with one reply. -/
def constServers (content : Option String) : Upstream where
  create _ := .ok ⟨[content], .null⟩
  vector _ _ _ := []
  embedFailure _ := none
  rerank _ := .ok []
  similarity _ _ := 0

private theorem readable_of_tolerates (hn : 2 ≤ n) (h : RerankTolerates x content n) :
    RerankReadable x content n := by
  have hresult : ∀ score, rankBy (probeHits n score) n (scoresOf x n ⟨[content], .null⟩) =
      .ok (materializeFloats (probeHits n score) (properScores x (replyBody content) n) n) := by
    intro score
    have hcomplete : ((complete x.sha256 x.llm (rerankCall x "" (probeHits n score) n)).exec
      (llmReply (constServers content) 0) (.cold [])).1 = .ok ⟨[content], .null⟩ := complete_cold rfl
    rw [← h (constServers content) 0 (.cold []) "" (probeHits n score) n true _ (length_probeHits n score)
      (fun _ => rfl) hcomplete rfl,
      llmRerank_reply (by rw [length_probeHits]; exact hn) (fun _ => rfl) hcomplete, length_probeHits]
  cases hscores : scoresOf x n ⟨[content], .null⟩ with
  | error e =>
    have hzero := hresult 0
    rw [hscores, rankBy_of_two (by rw [length_probeHits]; exact hn)] at hzero
    cases hzero
  | ok ss =>
    obtain ⟨hloop, hfits, hlast⟩ := scoresOf_ok rfl hscores
    refine ⟨hloop, hfits, fun i hi => ?_⟩
    rw [← hlast i]
    refine eq_of_materializeFloats (fun score => ?_) hi
    have hsame := hresult score
    rw [hscores, rankBy_of_two (by rw [length_probeHits]; exact hn)] at hsame
    exact Except.ok.inj hsame

end Iff

/-- A call handles the reply as it should exactly if the loop over the entries runs, none of them
overflows, and for every candidate the last entry that is accepted has the score of the last proper one.
-/
theorem rerank_tolerates_iff (x : RetrievalSetup) (content : Option String) {n : Nat} (hn : 2 ≤ n) :
    RerankTolerates x content n ↔ RerankReadable x content n :=
  ⟨readable_of_tolerates hn, rerank_tolerates hn⟩

/-! ### Some replies -/

/-- A list instead of an object; an infinite id; an id that is a string. -/
def listReply : String := "[]"

def infiniteReply : String :=
  "\x7b\"ranked\": [\x7b\"id\": 0, \"score\": 1.0\x7d, \x7b\"id\": Infinity, \"score\": 1.0\x7d]\x7d"

def stringReply : String := "\x7b\"ranked\": [\x7b\"id\": \"1\", \"score\": 0.9\x7d]\x7d"

def oddTexts : List (String × PyValue) :=
  [(oneScore, oneScoreValue), (listReply, .list []),
    (infiniteReply, .dict [("ranked", .list [scoreEntry 0 (.finite 1),
      .dict [("id", .float (.infinite false)), ("score", .float (.finite 1))]])]),
    (stringReply, .dict [("ranked", .list [.dict [("id", .str "1"), ("score", .float (.finite (9 / 10)))]])])]

def oddSetup : RetrievalSetup where
  sha256 := digestTable []
  llm := llmDefaults
  rerank := ⟨"llm", none, "rerank-v3.5", 100⟩
  parse := {
    loads := fun raw =>
      match oddTexts.find? fun t => t.1 = raw with
      | some t => .ok t.2
      | none => .error ⟨.jsonDecodeError, "Expecting value: line 1 column 1 (char 0)"⟩
    int := fun s => if s = "1" then some 1 else none
    float := fun _ => none }

/-- A reply with one proper entry. -/
theorem rerank_tolerates_one : RerankTolerates oddSetup (some oneScore) 2 := by
  have hloads : oddSetup.parse.loads oneScore = .ok oneScoreValue := rfl
  refine (rerank_tolerates_iff oddSetup (some oneScore) (le_refl 2)).mpr ⟨⟨?_, ?_, ?_⟩, ?_, by decide +kernel⟩
  · intro e he
    cases hloads.symm.trans he
  · intro v hv
    obtain rfl := Except.ok.inj (hloads.symm.trans hv)
    exact ⟨_, rfl⟩
  · intro fields v hfields hfield _
    obtain rfl := PyValue.dict.inj (Except.ok.inj (hloads.symm.trans hfields))
    obtain rfl := Option.some.inj hfield
    rfl
  · intro r hr
    obtain rfl : r = scoreEntry 0 (.finite 1) := List.mem_singleton.mp hr
    rintro ⟨fields, heq, ⟨negative, hid⟩ | ⟨-, k, hk, -⟩⟩
    · obtain rfl := PyValue.dict.inj heq
      cases hid
    · obtain rfl := PyValue.dict.inj heq
      cases hk

/-- A reply that is a list or has an infinite id makes the call raise, and an id that is a string is taken
for the integer. -/
theorem rerank_not_tolerates :
    ¬ RerankTolerates oddSetup (some listReply) 2 ∧
    ¬ RerankTolerates oddSetup (some infiniteReply) 2 ∧ ¬ RerankTolerates oddSetup (some stringReply) 2 := by
  refine ⟨?_, ?_, ?_⟩
  · intro h
    obtain ⟨fields, hfields⟩ := (readable_of_tolerates (le_refl 2) h).loop.object (.list []) rfl
    cases hfields
  · intro h
    refine (readable_of_tolerates (le_refl 2) h).fits _ (List.mem_cons_of_mem _ (List.mem_cons_self ..)) ?_
    exact ⟨_, rfl, Or.inl ⟨false, rfl⟩⟩
  · intro h
    have hlast := (readable_of_tolerates (le_refl 2) h).last 1 (by decide)
    have hdiffer : lastScore ((listUnder oddSetup.parse "ranked" stringReply).filterMap
      (acceptedEntry oddSetup 2)) 1 ≠
        properScores oddSetup stringReply 2 1 := by decide +kernel
    exact hdiffer hlast

end LegalRag
