import LegalRag.Text.Json
import Mathlib.Data.List.Nodup

/-!
# Cache keys

`make_key` of `src/core/redis.py`: a namespace and the SHA-256 of the parts, each followed by a bar.  The
hash is a parameter.
-/

namespace LegalRag

open Json

/-- A part of a key: a string is hashed as it is, anything else as JSON. -/
inductive KeyPart where
  | text (s : String)
  | json (v : Value)

def KeyPart.bytes : KeyPart → String
  | .text s => s
  | .json v => dumps v

/-- What is hashed. -/
def keyText (parts : List KeyPart) : String := parts.foldl (fun h p => h ++ p.bytes ++ "|") ""

/-- `make_key`. -/
def makeKey (sha256 : String → String) (ns : String) (parts : List KeyPart) : String :=
  ns ++ ":" ++ sha256 (keyText parts)

/-- The hash function of a table of digests. -/
def digestTable (digests : List (String × String)) (text : String) : String :=
  ((digests.find? fun d => d.1 = text).map Prod.snd).getD ""

/-- A table of different digests has no collision. -/
theorem digestTable_inj {digests : List (String × String)} (h : (digests.map Prod.snd).Nodup)
    {t t' : String} (ht : t ∈ digests.map Prod.fst) (ht' : t' ∈ digests.map Prod.fst)
    (heq : digestTable digests t = digestTable digests t') : t = t' := by
  have hfind : ∀ t ∈ digests.map Prod.fst, ∃ d ∈ digests, d.1 = t ∧ digestTable digests t = d.2 := by
    intro t ht
    obtain ⟨d, hd, hdt⟩ := List.mem_map.mp ht
    obtain ⟨found, hfound⟩ := Option.isSome_iff_exists.mp
      (List.find?_isSome (p := fun d => d.1 = t).mpr ⟨d, hd, decide_eq_true hdt⟩)
    have hkey : decide (found.1 = t) = true :=
      List.find?_some (p := fun d : String × String => decide (d.1 = t)) hfound
    refine ⟨found, List.mem_of_find?_eq_some hfound, of_decide_eq_true hkey, ?_⟩
    unfold digestTable
    rw [hfound]
    rfl
  obtain ⟨d, hd, rfl, hdigest⟩ := hfind t ht
  obtain ⟨d', hd', rfl, hdigest'⟩ := hfind t' ht'
  have hsame : d.2 = d'.2 := by rw [← hdigest, ← hdigest', heq]
  rw [List.inj_on_of_nodup_map h hd hd' hsame]

variable {sha256 : String → String}

/-- The characters of what is hashed. -/
private theorem keyText_toList (parts : List KeyPart) :
    (keyText parts).toList = parts.flatMap fun p => p.bytes.toList ++ ['|'] := by
  have hfold : ∀ (parts : List KeyPart) (h : String),
      (parts.foldl (fun h p => h ++ p.bytes ++ "|") h).toList = h.toList ++ parts.flatMap fun p =>
      p.bytes.toList ++ ['|'] := by
    intro parts
    induction parts with
    | nil => simp
    | cons p parts ih =>
      intro h
      rw [List.foldl_cons, ih, List.flatMap_cons, String.toList_append, String.toList_append,
        List.append_assoc, List.append_assoc]
      simp
  rw [keyText, hfold]
  rfl

theorem makeKey_text {ns : String} {ps qs : List KeyPart} (h : makeKey sha256 ns ps = makeKey sha256 ns qs) :
    sha256 (keyText ps) = sha256 (keyText qs) := by
  unfold makeKey at h
  exact (String.append_right_inj _).mp h

/-- What comes before the first `c`. -/
private theorem takeWhile_ne_append {c : Char} {l r : List Char} (hl : c ∉ l) :
    (l ++ c :: r).takeWhile (· ≠ c) = l := by
  rw [List.takeWhile_append_of_pos]
  · simp
  · intro d hd
    have hne : d ≠ c := fun heq => hl (heq ▸ hd)
    simpa using hne

/-- The namespace of a key ends at its first colon. -/
theorem makeKey_ns {ns ns' : String} {ps qs : List KeyPart} (hns : ':' ∉ ns.toList)
    (hns' : ':' ∉ ns'.toList) (h : makeKey sha256 ns ps = makeKey sha256 ns' qs) : ns = ns' := by
  have hchars : ns.toList ++ ':' :: (sha256 (keyText ps)).toList = ns'.toList ++
      ':' :: (sha256 (keyText qs)).toList := by
    have htext := congrArg String.toList h
    simpa [makeKey] using htext
  refine String.toList_inj.mp ?_
  rw [← takeWhile_ne_append hns, hchars, takeWhile_ne_append hns']

/-- A string and values after it are determined by what is hashed of them. -/
theorem keyText_cancel {m m' : String} {v v' u u' : Value}
    (h : keyText [.text m, .json v, .json u] = keyText [.text m', .json v', .json u']) :
    m = m' ∧ v = v' ∧ u = u' := by
  have hchars : ((m.toList ++ '|' :: chars v) ++ '|' :: chars u) ++ ['|'] =
      ((m'.toList ++ '|' :: chars v') ++ '|' :: chars u') ++ ['|'] := by
    have htext := congrArg String.toList h
    simpa [keyText_toList, KeyPart.bytes, dumps] using htext
  obtain ⟨hfirst, hu⟩ := split_at_bar (closed_chars u) (closed_chars u') (List.append_cancel_right hchars)
  obtain ⟨hm, hv⟩ := split_at_bar (closed_chars v) (closed_chars v') hfirst
  refine ⟨String.toList_inj.mp hm, ?_, ?_⟩
  · exact (chars_cancel v v' ends_nil ends_nil (by rw [hv])).1
  · exact (chars_cancel u u' ends_nil ends_nil (by rw [hu])).1

/-- A first string without a bar ends at the first bar. -/
theorem keyText_text_cancel {m m' : String} (hm : '|' ∉ m.toList) (hm' : '|' ∉ m'.toList)
    {ps qs : List KeyPart} (h : keyText (.text m :: ps) = keyText (.text m' :: qs)) : m = m' := by
  have hchars : m.toList ++ '|' :: (keyText ps).toList = m'.toList ++ '|' :: (keyText qs).toList := by
    simpa [keyText_toList, KeyPart.bytes] using congrArg String.toList h
  refine String.toList_inj.mp ?_
  rw [← takeWhile_ne_append hm, hchars, takeWhile_ne_append hm']

/-- Two strings, the first of which is known. -/
theorem keyText_pair_cancel {m t t' : String}
    (h : keyText [.text m, .text t] = keyText [.text m, .text t']) : t = t' := by
  have hchars : t.toList = t'.toList := by
    simpa [keyText_toList, KeyPart.bytes] using congrArg String.toList h
  exact String.toList_inj.mp hchars

/-- The value after two strings. -/
theorem keyText_last {m m' t t' : String} {v v' : Value}
    (h : keyText [.text m, .text t, .json v] = keyText [.text m', .text t', .json v']) : v = v' := by
  have hchars : ((m.toList ++ '|' :: t.toList) ++ '|' :: chars v) ++ ['|'] =
      ((m'.toList ++ '|' :: t'.toList) ++ '|' :: chars v') ++ ['|'] := by
    simpa [keyText_toList, KeyPart.bytes, dumps] using congrArg String.toList h
  obtain ⟨-, hv⟩ := split_at_bar (closed_chars v) (closed_chars v') (List.append_cancel_right hchars)
  exact (chars_cancel v v' ends_nil ends_nil (by rw [hv])).1

/-- A known string, another one and a value after it. -/
theorem keyText_triple_cancel {m t t' : String} {v v' : Value}
    (h : keyText [.text m, .text t, .json v] = keyText [.text m, .text t', .json v']) : t = t' ∧ v = v' := by
  obtain rfl : v = v' := keyText_last h
  have hchars : t.toList = t'.toList := by
    simpa [keyText_toList, KeyPart.bytes, dumps] using congrArg String.toList h
  exact ⟨String.toList_inj.mp hchars, rfl⟩

/-- Neither name, with a bar after it, begins the other one. -/
structure Apart (m m' : String) : Prop where
  left : ¬ m.toList ++ ['|'] <+: m'.toList ++ ['|']
  right : ¬ m'.toList ++ ['|'] <+: m.toList ++ ['|']

/-- Texts that begin with such names differ. -/
theorem Apart.keyText_ne {m m' : String} (h : Apart m m') (ps qs : List KeyPart) :
    keyText (.text m :: ps) ≠ keyText (.text m' :: qs) := by
  intro heq
  have hchars : m.toList ++ ['|'] ++ (keyText ps).toList = m'.toList ++ ['|'] ++ (keyText qs).toList := by
    have htext := congrArg String.toList heq
    simpa [keyText_toList, KeyPart.bytes] using htext
  have hleft : m.toList ++ ['|'] <+: m'.toList ++ ['|'] ++ (keyText qs).toList :=
    hchars ▸ List.prefix_append _ _
  rcases List.prefix_or_prefix_of_prefix hleft (List.prefix_append _ _) with hpre | hpre
  · exact h.left hpre
  · exact h.right hpre

end LegalRag
