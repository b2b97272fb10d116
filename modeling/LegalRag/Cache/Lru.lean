import Mathlib.Data.List.Nodup

/-!
# A least-recently-used cache

An ordered dict with a capacity: reading or writing an entry moves it to the end, and a write that makes
the dict too long drops its first entry.  What holds of every entry is kept by both (`All.get`,
`All.set`).
-/

/-- The entries, the least recently used first. -/
structure Lru (κ β : Type) where
  cap : Nat
  entries : List (κ × β)
  nodup : (entries.map Prod.fst).Nodup
  bounded : entries.length ≤ cap

namespace Lru

variable {κ β : Type}

/-- No entries. -/
def empty (cap : Nat) : Lru κ β := ⟨cap, [], List.nodup_nil, Nat.zero_le cap⟩

variable [DecidableEq κ]

/-- The entries of the other keys. -/
def others (k : κ) (es : List (κ × β)) : List (κ × β) := es.filter fun e => e.1 ≠ k

/-- The entries with that of `k` at the end. -/
def toEnd (k : κ) (v : β) (es : List (κ × β)) : List (κ × β) := others k es ++ [(k, v)]

private theorem nodup_toEnd {es : List (κ × β)} (h : (es.map Prod.fst).Nodup) (k : κ) (v : β) :
    ((toEnd k v es).map Prod.fst).Nodup := by
  unfold toEnd others
  rw [List.map_append, List.nodup_append]
  refine ⟨h.sublist (List.Sublist.map _ List.filter_sublist), List.nodup_singleton _, ?_⟩
  intro a ha b hb
  obtain ⟨e, he, rfl⟩ := List.mem_map.mp ha
  obtain rfl : b = k := by simpa using hb
  simpa using (List.mem_filter.mp he).2

theorem length_toEnd_le (k : κ) (v : β) (es : List (κ × β)) : (toEnd k v es).length ≤ es.length + 1 := by
  unfold toEnd others
  rw [List.length_append, List.length_singleton]
  exact Nat.add_le_add_right (List.length_filter_le _ es) 1

private theorem length_toEnd_of_mem {k : κ} {u : β} {es : List (κ × β)} (h : (k, u) ∈ es) (v : β) :
    (toEnd k v es).length ≤ es.length := by
  have hlt : (others k es).length < es.length := by
    unfold others
    rw [List.length_filter_lt_length_iff_exists]
    exact ⟨(k, u), h, by simp⟩
  unfold toEnd
  rw [List.length_append, List.length_singleton]
  omega

/-- The entry of a key. -/
def find? (k : κ) (c : Lru κ β) : Option (κ × β) := c.entries.find? fun e => e.1 = k

theorem mem_of_find? {k : κ} {e : κ × β} {c : Lru κ β} (h : c.find? k = some e) : (k, e.2) ∈ c.entries := by
  have hkey : e.1 = k := by simpa using List.find?_some h
  rw [← hkey]
  exact List.mem_of_find?_eq_some h

/-- `get`. -/
def get (k : κ) (c : Lru κ β) : Option β × Lru κ β :=
  match h : c.find? k with
  | none => (none, c)
  | some e => (some e.2, ⟨c.cap, toEnd k e.2 c.entries, nodup_toEnd c.nodup k e.2,
      Nat.le_trans (length_toEnd_of_mem (mem_of_find? h) e.2) c.bounded⟩)

/-- `set`. -/
def set (k : κ) (v : β) (c : Lru κ β) : Lru κ β :=
  if h : (toEnd k v c.entries).length > c.cap then
    ⟨c.cap, (toEnd k v c.entries).tail,
      (nodup_toEnd c.nodup k v).sublist (List.Sublist.map _ (List.tail_sublist _)), by
      have hle := length_toEnd_le k v c.entries
      have hbounded := c.bounded
      rw [List.length_tail]
      omega⟩
  else ⟨c.cap, toEnd k v c.entries, nodup_toEnd c.nodup k v, Nat.le_of_not_gt h⟩

/-- Every entry satisfies `J`. -/
def All (J : κ → β → Prop) (c : Lru κ β) : Prop := ∀ e ∈ c.entries, J e.1 e.2

variable {J : κ → β → Prop} {c : Lru κ β}

omit [DecidableEq κ] in
theorem all_empty (J : κ → β → Prop) (cap : Nat) : (empty cap : Lru κ β).All J := nofun

private theorem all_toEnd (h : c.All J) {k : κ} {v : β} (hv : J k v) :
    ∀ e ∈ toEnd k v c.entries, J e.1 e.2 := by
  intro e he
  rcases List.mem_append.mp he with he | he
  · exact h e (List.mem_of_mem_filter he)
  · obtain rfl := List.mem_singleton.mp he
    exact hv

theorem All.get_some (h : c.All J) {k : κ} {v : β} (hget : (c.get k).1 = some v) : J k v := by
  unfold get at hget
  split at hget
  · cases hget
  · rename_i e he
    obtain rfl := Option.some.inj hget
    exact h _ (mem_of_find? he)

theorem All.get (h : c.All J) (k : κ) : (c.get k).2.All J := by
  unfold Lru.get
  split
  · exact h
  · rename_i e he
    exact all_toEnd h (h _ (mem_of_find? he))

theorem All.set (h : c.All J) {k : κ} {v : β} (hv : J k v) : (c.set k v).All J := by
  unfold Lru.set
  split
  · intro e he
    exact all_toEnd h hv e (List.mem_of_mem_tail he)
  · exact all_toEnd h hv

/-- What was just written to an empty cache is found. -/
theorem get_set_empty {cap : Nat} (hcap : 0 < cap) (k : κ) (v : β) :
    (((empty cap).set k v).get k).1 = some v := by
  have hset : ((empty cap).set k v).entries = [(k, v)] := by
    unfold Lru.set
    split
    · rename_i h
      exact absurd h (Nat.not_lt.mpr hcap)
    · rfl
  have hfind : ((empty cap).set k v).find? k = some (k, v) := by
    unfold find?
    rw [hset]
    simp
  unfold Lru.get
  split
  · rename_i h
    rw [hfind] at h
    cases h
  · rename_i e he
    obtain rfl := Option.some.inj (hfind.symm.trans he)
    rfl

end Lru
