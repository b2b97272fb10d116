import LegalRag.Lists.Ranked
import Mathlib.Data.List.Dedup

/-!
# The best element of every key

`BestOf key score l best`: for every key in `l` the list `best` has one element, one with the highest
score of that key.  Which one it is where several have that score, and the order of `best`, are left open.

* `mem_pairs_iff`, `pairs_perm`: the keys with their scores depend on the elements of `l` only;
* `length_eq`: there are as many as there are different keys;
* `scores_ranked`, `keys_take_ranked`: the scores of the ranking do not depend on the order of `l`, and
neither do the keys that are kept where the scores on both sides of the cut differ.
-/

namespace Best

open Ranked

variable {α κ : Type} {key : α → κ} {score : α → ℚ} {l l' best best' : List α}

structure BestOf (key : α → κ) (score : α → ℚ) (l best : List α) : Prop where
  nodup : (best.map key).Nodup
  mem : ∀ b ∈ best, b ∈ l
  covers : ∀ a ∈ l, ∃ b ∈ best, key b = key a ∧ score a ≤ score b

theorem BestOf.nil : BestOf key score [] [] := ⟨List.nodup_nil, nofun, nofun⟩

private theorem BestOf.eq_of_key (h : BestOf key score l best) {a b : α} (ha : a ∈ best) (hb : b ∈ best)
    (heq : key a = key b) : a = b := List.inj_on_of_nodup_map h.nodup ha hb heq

theorem BestOf.le_of_key (h : BestOf key score l best) {a b : α} (ha : a ∈ l) (hb : b ∈ best)
    (heq : key a = key b) : score a ≤ score b := by
  obtain ⟨c, hc, hkey, hle⟩ := h.covers a ha
  obtain rfl := h.eq_of_key hc hb (hkey.trans heq)
  exact hle

private theorem BestOf.mem_keys_iff (h : BestOf key score l best) {k : κ} :
    k ∈ best.map key ↔ k ∈ l.map key := by
  constructor
  · intro hk
    obtain ⟨b, hb, rfl⟩ := List.mem_map.mp hk
    exact List.mem_map_of_mem (h.mem b hb)
  · intro hk
    obtain ⟨a, ha, rfl⟩ := List.mem_map.mp hk
    obtain ⟨b, hb, hkey, -⟩ := h.covers a ha
    exact hkey ▸ List.mem_map_of_mem hb

theorem BestOf.length_eq [DecidableEq κ] (h : BestOf key score l best) :
    best.length = (l.map key).dedup.length := by
  have hperm : (best.map key).Perm (l.map key).dedup := by
    rw [List.perm_ext_iff_of_nodup h.nodup (List.nodup_dedup _)]
    intro k
    rw [List.mem_dedup, h.mem_keys_iff]
  rw [← hperm.length_eq, List.length_map]

/-- An element with its key and its score. -/
def pair (key : α → κ) (score : α → ℚ) (a : α) : κ × ℚ := (key a, score a)

/-- The keys with their highest scores. -/
theorem BestOf.mem_pairs_iff (h : BestOf key score l best) {p : κ × ℚ} :
    p ∈ best.map (pair key score) ↔
      ∃ a ∈ l, pair key score a = p ∧ ∀ a' ∈ l, key a' = key a → score a' ≤ score a := by
  rw [List.mem_map]
  constructor
  · rintro ⟨b, hb, rfl⟩
    exact ⟨b, h.mem b hb, rfl, fun a' ha' hkey => h.le_of_key ha' hb hkey⟩
  · rintro ⟨a, ha, rfl, hmax⟩
    obtain ⟨b, hb, hkey, hle⟩ := h.covers a ha
    have hsame : score b = score a := le_antisymm (hmax b (h.mem b hb) hkey) hle
    exact ⟨b, hb, Prod.ext hkey hsame⟩

private theorem BestOf.nodup_pairs (h : BestOf key score l best) : (best.map (pair key score)).Nodup := by
  have hfst : ((best.map (pair key score)).map Prod.fst).Nodup := by
    rw [List.map_map]
    exact h.nodup
  exact List.Nodup.of_map _ hfst

theorem BestOf.pairs_perm (h : BestOf key score l best) (h' : BestOf key score l' best')
    (hl : l.Perm l') : (best.map (pair key score)).Perm (best'.map (pair key score)) := by
  rw [List.perm_ext_iff_of_nodup h.nodup_pairs h'.nodup_pairs]
  intro p
  simp only [h.mem_pairs_iff, h'.mem_pairs_iff, hl.mem_iff]

private theorem BestOf.scores_perm (h : BestOf key score l best) (h' : BestOf key score l' best')
    (hl : l.Perm l') : (best.map score).Perm (best'.map score) := by
  have hperm := (h.pairs_perm h' hl).map Prod.snd
  rwa [List.map_map, List.map_map] at hperm

theorem BestOf.scores_ranked (h : BestOf key score l best) (h' : BestOf key score l' best')
    (hl : l.Perm l') : (ranked score best).map score = (ranked score best').map score :=
  scores_eq_of_perm (h.scores_perm h' hl)

/-- The cut of one ranking is a cut of the other. -/
theorem BestOf.cutApart (h : BestOf key score l best) (h' : BestOf key score l' best') (hl : l.Perm l')
    {n : Nat} (hcut : CutApart score best n) : CutApart score best' n := by
  have hscores := h.scores_ranked h' hl
  have hat : ∀ (i : Nat) (b : α), (ranked score best')[i]? = some b →
      ∃ a, (ranked score best)[i]? = some a ∧ score a = score b := by
    intro i b hb
    have hi := congrArg (fun m : List ℚ => m[i]?) hscores
    simp only [List.getElem?_map, hb, Option.map_some] at hi
    exact Option.map_eq_some_iff.mp hi
  intro a b ha hb
  obtain ⟨a', ha', hsa⟩ := hat _ _ ha
  obtain ⟨b', hb', hsb⟩ := hat _ _ hb
  rw [← hsa, ← hsb]
  exact hcut a' b' ha' hb'

theorem BestOf.keys_take_ranked (h : BestOf key score l best) (h' : BestOf key score l' best')
    (hl : l.Perm l') {n : Nat} (hcut : CutApart score best n) {k : κ}
    (hk : k ∈ ((ranked score best).take n).map key) : k ∈ ((ranked score best').take n).map key := by
  obtain ⟨b, hb, rfl⟩ := List.mem_map.mp hk
  have hmem : b ∈ best := mem_ranked.mp (List.mem_of_mem_take hb)
  -- the same key has the same score in the other list
  obtain ⟨b', hmem', hpair⟩ := List.mem_map.mp ((h.pairs_perm h' hl).mem_iff.mp (List.mem_map_of_mem hmem))
  obtain ⟨hkey, hscore⟩ := Prod.mk.inj hpair
  have hcount : best'.countP (fun z => score b' < score z) = best.countP (fun z => score b < score z) := by
    have hperm := (h.scores_perm h' hl).countP_eq fun s => score b < s
    rw [List.countP_map, List.countP_map] at hperm
    rw [hscore]
    exact hperm.symm
  have hfew := (mem_take_iff_countP hcut hmem).mp hb
  have hkept := (mem_take_iff_countP (h.cutApart h' hl hcut) hmem').mpr (hcount ▸ hfew)
  exact hkey ▸ List.mem_map_of_mem hkept

end Best
