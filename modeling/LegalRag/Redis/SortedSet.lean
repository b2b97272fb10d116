import Mathlib.Data.List.Sort
import Mathlib.Data.Finset.Card

/-!
# Sorted sets

A sorted set maps members to scores and is kept in the order of the scores.  `zadd` gives a member its
score, `zremrangebyscore` drops the members whose score lies in a closed interval, `zcard` counts.  That a
member occurs once and that the entries are in order are fields of the structure, so no command can break
them.
-/

namespace Redis

/-- A member of a sorted set with its score. -/
structure Entry (μ σ : Type) where
  member : μ
  score : σ
  deriving DecidableEq, Repr

/-- A sorted set: each member once, by increasing score. -/
structure ZSet (μ σ : Type) [LinearOrder σ] where
  entries : List (Entry μ σ)
  nodup : (entries.map Entry.member).Nodup
  sorted : entries.Pairwise fun a b => a.score ≤ b.score

namespace ZSet

variable {μ σ : Type} [LinearOrder σ]

/-- The key that does not exist. -/
def empty : ZSet μ σ := ⟨[], List.nodup_nil, List.Pairwise.nil⟩

/-- `ZCARD`. -/
def zcard (z : ZSet μ σ) : Nat := z.entries.length

/-- `ZREMRANGEBYSCORE lo hi`. -/
def zremrangebyscore (lo hi : σ) (z : ZSet μ σ) : ZSet μ σ where
  entries := z.entries.filter fun e => ¬ (lo ≤ e.score ∧ e.score ≤ hi)
  nodup := z.nodup.sublist (List.filter_sublist.map _)
  sorted := z.sorted.sublist List.filter_sublist

instance : IsTrans (Entry μ σ) fun a b => a.score ≤ b.score := ⟨fun _ _ _ => le_trans⟩
instance : Std.Total fun a b : Entry μ σ => a.score ≤ b.score := ⟨fun a b => le_total a.score b.score⟩

/-- `ZADD score member`: the member moves to its new place. -/
def zadd [DecidableEq μ] (m : μ) (s : σ) (z : ZSet μ σ) : ZSet μ σ where
  entries := (z.entries.filter fun e => e.member ≠ m).orderedInsert (fun a b => a.score ≤ b.score) ⟨m, s⟩
  nodup := by
    rw [((List.perm_orderedInsert _ _ _).map Entry.member).nodup_iff, List.map_cons, List.nodup_cons]
    exact ⟨by simp, z.nodup.sublist (List.filter_sublist.map _)⟩
  sorted := (z.sorted.sublist List.filter_sublist).orderedInsert _ _

/-- `ZRANGE 0 0 WITHSCORES`: the entry with the least score, as a list. -/
def lowest (z : ZSet μ σ) : List (Entry μ σ) := z.entries.take 1

instance : Membership (Entry μ σ) (ZSet μ σ) := ⟨fun z e => e ∈ z.entries⟩

theorem mem_def {z : ZSet μ σ} {e : Entry μ σ} : e ∈ z ↔ e ∈ z.entries := Iff.rfl

@[simp] theorem not_mem_empty (e : Entry μ σ) : e ∉ (empty : ZSet μ σ) := by simp [mem_def, empty]

@[simp] theorem mem_zremrangebyscore {lo hi : σ} {z : ZSet μ σ} {e : Entry μ σ} :
    e ∈ z.zremrangebyscore lo hi ↔ e ∈ z ∧ ¬ (lo ≤ e.score ∧ e.score ≤ hi) := by
  simp only [mem_def, zremrangebyscore, List.mem_filter, decide_eq_true_eq]

@[simp] theorem mem_zadd [DecidableEq μ] {m : μ} {s : σ} {z : ZSet μ σ} {e : Entry μ σ} :
    e ∈ z.zadd m s ↔ e = ⟨m, s⟩ ∨ e ∈ z ∧ e.member ≠ m := by
  simp [mem_def, zadd, List.mem_orderedInsert]

/-- Distinct members of the set number at most its cardinality. -/
theorem card_le_zcard [DecidableEq μ] {z : ZSet μ σ} {M : Finset μ} (h : ∀ m ∈ M, ∃ e ∈ z, e.member = m) :
    M.card ≤ z.zcard := by
  have hsub : M ⊆ (z.entries.map Entry.member).toFinset := by
    intro m hm
    obtain ⟨e, he, rfl⟩ := h m hm
    exact List.mem_toFinset.mpr (List.mem_map_of_mem he)
  calc M.card ≤ (z.entries.map Entry.member).toFinset.card := Finset.card_le_card hsub
    _ = z.zcard := by rw [List.toFinset_card_of_nodup z.nodup, List.length_map, zcard]

/-- The members of the set number exactly its cardinality. -/
theorem card_members [DecidableEq μ] (z : ZSet μ σ) :
    (z.entries.map Entry.member).toFinset.card = z.zcard := by
  rw [List.toFinset_card_of_nodup z.nodup, List.length_map, zcard]

/-! ### Sizes -/

private theorem nodup_entries (z : ZSet μ σ) : z.entries.Nodup := z.nodup.of_map _

theorem zcard_le_of_subset {z z' : ZSet μ σ} (h : ∀ e ∈ z, e ∈ z') : z.zcard ≤ z'.zcard :=
  (z.nodup_entries.subperm h).length_le

theorem zcard_lt_of_subset {z z' : ZSet μ σ} (h : ∀ e ∈ z, e ∈ z') {e : Entry μ σ} (he : e ∈ z')
    (hne : e ∉ z) : z.zcard < z'.zcard := by
  have hnodup : (e :: z.entries).Nodup := List.nodup_cons.mpr ⟨hne, z.nodup_entries⟩
  have hsub : ∀ f ∈ e :: z.entries, f ∈ z'.entries := by
    intro f hf
    rcases List.mem_cons.mp hf with rfl | hf
    · exact he
    · exact h f hf
  exact (hnodup.subperm hsub).length_le

theorem zcard_zremrangebyscore_le (lo hi : σ) (z : ZSet μ σ) : (z.zremrangebyscore lo hi).zcard ≤ z.zcard :=
  List.length_filter_le _ _

theorem zcard_zadd_le [DecidableEq μ] (m : μ) (s : σ) (z : ZSet μ σ) : (z.zadd m s).zcard ≤ z.zcard + 1 := by
  have hperm := List.perm_orderedInsert (fun a b : Entry μ σ => a.score ≤ b.score) ⟨m, s⟩
    (z.entries.filter fun e => e.member ≠ m)
  have hle := List.length_filter_le (fun e => decide (e.member ≠ m)) z.entries
  have hlen := hperm.length_eq
  rw [List.length_cons] at hlen
  simp only [zcard, zadd]
  omega

/-- The first entry of a set that is not empty has the least score. -/
theorem lowest_eq {z : ZSet μ σ} {f : Entry μ σ} (hf : f ∈ z) :
    ∃ e ∈ z, z.lowest = [e] ∧ ∀ e' ∈ z, e.score ≤ e'.score := by
  have hsorted := z.sorted
  simp only [mem_def, lowest] at hf ⊢
  cases hz : z.entries with
  | nil =>
    rw [hz] at hf
    cases hf
  | cons e es =>
    rw [hz] at hsorted
    refine ⟨e, List.mem_cons_self .., rfl, ?_⟩
    intro e' he'
    rcases List.mem_cons.mp he' with rfl | he'
    · exact le_refl _
    · exact (List.pairwise_cons.mp hsorted).1 e' he'

end ZSet

end Redis
