import Mathlib.Data.List.Nodup

/-!
# Tables with a unique constraint

A table is a list of rows of which no two have the same key; a statement that would break the constraint
fails, so that no other table can be built.

* `eq_of_key`: a key determines its row;
* `find?_key`: a lookup by key finds the row that has it;
* `mem_update`, `mem_insert?`: the rows after an UPDATE and after an INSERT;
* `Apart`: ids that are held in several places (a table, the sessions that have not committed), no id in
two of them.
-/

namespace Relational

variable {ρ κ : Type} {key : ρ → κ}

/-- Rows with pairwise different keys. -/
structure Table {ρ κ : Type} (key : ρ → κ) where
  rows : List ρ
  unique : (rows.map key).Nodup

namespace Table

/-- `UPDATE`: every row is rewritten by `f`, which leaves the key alone. -/
def update (f : ρ → ρ) (hf : ∀ r, key (f r) = key r) (t : Table key) : Table key where
  rows := t.rows.map f
  unique := by
    have h : (t.rows.map f).map key = t.rows.map key := by simp [hf]
    rw [h]
    exact t.unique

/-- `DELETE`: the rows that satisfy `p` stay. -/
def filter (p : ρ → Bool) (t : Table key) : Table key where
  rows := t.rows.filter p
  unique := t.unique.sublist (List.filter_sublist.map key)

/-- `INSERT`: fails if the rows would violate the constraint. -/
def insert? [DecidableEq κ] (new : List ρ) (t : Table key) : Option (Table key) :=
  if h : ((t.rows ++ new).map key).Nodup then some ⟨t.rows ++ new, h⟩ else none

theorem eq_of_key (t : Table key) {r r' : ρ} (hr : r ∈ t.rows) (hr' : r' ∈ t.rows)
    (h : key r = key r') : r = r' :=
  List.inj_on_of_nodup_map t.unique hr hr' h

theorem rows_insert? [DecidableEq κ] {new : List ρ} {t t' : Table key} (h : t.insert? new = some t') :
    t'.rows = t.rows ++ new := by
  unfold insert? at h
  split at h
  · simp only [Option.some.injEq] at h
    rw [← h]
  · cases h

theorem mem_insert? [DecidableEq κ] {new : List ρ} {t t' : Table key} (h : t.insert? new = some t') {r : ρ} :
    r ∈ t'.rows ↔ r ∈ t.rows ∨ r ∈ new := by
  rw [rows_insert? h, List.mem_append]

theorem mem_update {f : ρ → ρ} {hf : ∀ r, key (f r) = key r} {t : Table key} {r : ρ} :
    r ∈ (t.update f hf).rows ↔ ∃ r' ∈ t.rows, f r' = r := List.mem_map

/-- The row that a lookup by key finds. -/
theorem find?_key [DecidableEq κ] (t : Table key) {r : ρ} (hr : r ∈ t.rows) :
    t.rows.find? (fun r' => key r' = key r) = some r := by
  cases h : t.rows.find? (fun r' => key r' = key r) with
  | none =>
    have hnone := List.find?_eq_none.mp h r hr
    simp at hnone
  | some r' =>
    have hk : key r' = key r := by simpa using List.find?_some h
    have hm : r' ∈ t.rows := List.mem_of_find?_eq_some h
    rw [t.eq_of_key hm hr hk]

end Table

/-- The ids below `n` that are given out, each of them held once and in one place. -/
structure Apart {κ : Type} (ids : κ → List Nat) (n : Nat) : Prop where
  nodup : ∀ k, (ids k).Nodup
  apart : ∀ k k' i, i ∈ ids k → i ∈ ids k' → k = k'
  fresh : ∀ k, ∀ i ∈ ids k, i < n

namespace Apart

variable {κ : Type} {ids : κ → List Nat} {n : Nat}

theorem mono (h : Apart ids n) {m : Nat} (hm : n ≤ m) : Apart ids m where
  nodup := h.nodup
  apart := h.apart
  fresh k i hi := by have := h.fresh k i hi; omega

/-- Fewer ids. -/
theorem sub {ids' : κ → List Nat} (h : Apart ids n) (hsub : ∀ k, (ids' k).Sublist (ids k)) :
    Apart ids' n where
  nodup k := (h.nodup k).sublist (hsub k)
  apart k k' i hi hi' := h.apart k k' i ((hsub k).subset hi) ((hsub k').subset hi')
  fresh k i hi := h.fresh k i ((hsub k).subset hi)

variable [DecidableEq κ]

/-- The ids of a place are forgotten. -/
theorem clear (h : Apart ids n) (k : κ) : Apart (Function.update ids k []) n := by
  refine h.sub fun k' => ?_
  by_cases hk : k' = k
  · subst hk
    rw [Function.update_self]
    exact List.nil_sublist _
  · rw [Function.update_of_ne hk]

/-- The next id goes to a place. -/
theorem insert (h : Apart ids n) (k : κ) : Apart (Function.update ids k (ids k ++ [n])) (n + 1) := by
  have hmem : ∀ k' i, i ∈ Function.update ids k (ids k ++ [n]) k' ↔ i ∈ ids k' ∨ k' = k ∧ i = n := by
    intro k' i
    by_cases hk : k' = k
    · subst hk
      simp
    · simp [hk]
  constructor
  · intro k'
    by_cases hk : k' = k
    · subst hk
      rw [Function.update_self, List.nodup_append]
      refine ⟨h.nodup k', by simp, ?_⟩
      intro i hi j hj
      have := h.fresh k' i hi
      have := List.mem_singleton.mp hj
      omega
    · rw [Function.update_of_ne hk]
      exact h.nodup k'
  · intro k₁ k₂ i h₁ h₂
    rw [hmem] at h₁ h₂
    rcases h₁ with h₁ | ⟨rfl, rfl⟩ <;> rcases h₂ with h₂ | ⟨rfl, hi⟩
    · exact h.apart _ _ _ h₁ h₂
    · have := h.fresh _ _ h₁
      omega
    · have := h.fresh _ _ h₂
      omega
    · rfl
  · intro k' i hi
    rw [hmem] at hi
    rcases hi with hi | ⟨-, rfl⟩
    · have := h.fresh _ _ hi
      omega
    · omega

/-- The ids of one place go to another. -/
theorem move (h : Apart ids n) {k k' : κ} (hne : k ≠ k') :
    Apart (Function.update (Function.update ids k (ids k ++ ids k')) k' []) n := by
  have hk : Function.update (Function.update ids k (ids k ++ ids k')) k' [] k = ids k ++ ids k' := by
    rw [Function.update_of_ne hne, Function.update_self]
  have hk' : Function.update (Function.update ids k (ids k ++ ids k')) k' [] k' = [] :=
    Function.update_self _ _ _
  have hother : ∀ q, q ≠ k → q ≠ k' →
      Function.update (Function.update ids k (ids k ++ ids k')) k' [] q = ids q := by
    intro q hq hq'
    rw [Function.update_of_ne hq', Function.update_of_ne hq]
  -- where an id of the new places comes from
  have hmem : ∀ q i, i ∈ Function.update (Function.update ids k (ids k ++ ids k')) k' [] q →
      q ≠ k' ∧ (i ∈ ids q ∨ q = k ∧ i ∈ ids k') := by
    intro q i hi
    by_cases hq' : q = k'
    · rw [hq', hk'] at hi
      cases hi
    · refine ⟨hq', ?_⟩
      by_cases hq : q = k
      · subst hq
        rw [hk] at hi
        exact (List.mem_append.mp hi).imp id fun hi => ⟨rfl, hi⟩
      · rw [hother q hq hq'] at hi
        exact Or.inl hi
  constructor
  · intro q
    by_cases hq' : q = k'
    · rw [hq', hk']
      exact List.nodup_nil
    · by_cases hq : q = k
      · rw [hq, hk, List.nodup_append]
        refine ⟨h.nodup k, h.nodup k', ?_⟩
        intro i hi j hj he
        exact hne (h.apart k k' i hi (he ▸ hj))
      · rw [hother q hq hq']
        exact h.nodup q
  · intro q₁ q₂ i h₁ h₂
    obtain ⟨hq₁, hi₁⟩ := hmem q₁ i h₁
    obtain ⟨hq₂, hi₂⟩ := hmem q₂ i h₂
    clear h₁ h₂
    rcases hi₁ with hi₁ | ⟨rfl, hi₁⟩ <;> rcases hi₂ with hi₂ | ⟨rfl, hi₂⟩
    · exact h.apart _ _ _ hi₁ hi₂
    · exact absurd (h.apart _ _ _ hi₁ hi₂) hq₁
    · exact absurd (h.apart _ _ _ hi₂ hi₁) hq₂
    · rfl
  · intro q i hi
    rcases (hmem q i hi).2 with hi | ⟨-, hi⟩
    · exact h.fresh _ _ hi
    · exact h.fresh _ _ hi

end Apart

end Relational
