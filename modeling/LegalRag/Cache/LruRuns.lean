import LegalRag.Cache.Lru
import LegalRag.Lists.Recency

/-!
# What a run leaves in the cache

A run of reads and writes on an empty cache.  A key is used by a write to it and by a read that finds it.

* `Tracks`: the entries are those of the keys used most recently, in the order of their last use, with
what was last written to them; `tracks_step` for one operation, `tracks_run` for a run;
* `get_run`: a read finds what was last written to the key, unless as many other keys as the cache holds
were used since the last use of the key.
-/

/-- An operation on the cache. -/
inductive LruOp (κ β : Type) where
  | set (k : κ) (v : β)
  | get (k : κ)

namespace Lru

open Redis Recency

variable {κ β : Type} [DecidableEq κ]

/-- The cache after an operation. -/
def step (c : Lru κ β) : LruOp κ β → Lru κ β
  | .set k v => c.set k v
  | .get k => (c.get k).2

/-- The cache after a run. -/
def run (cap : Nat) (ops : List (LruOp κ β)) : Lru κ β := ops.foldl step (empty cap)

/-- The key an operation uses, if any. -/
def used (c : Lru κ β) : LruOp κ β → List κ
  | .set k _ => [k]
  | .get k => if (c.get k).1.isSome then [k] else []

/-- The keys that operations use, in their order. -/
def usesFrom : Lru κ β → List (LruOp κ β) → List κ
  | _, [] => []
  | c, op :: ops => c.used op ++ usesFrom (c.step op) ops

/-- The keys used in a run. -/
def uses (cap : Nat) (ops : List (LruOp κ β)) : List κ := usesFrom (empty cap) ops

/-- What an operation writes to a key. -/
def written (k : κ) : LruOp κ β → Option β
  | .set k' v => if k' = k then some v else none
  | .get _ => none

/-- What a run writes to a key last. -/
def lastSet (k : κ) (ops : List (LruOp κ β)) : Option β := ops.reverse.findSome? (written k)

private theorem run_concat (cap : Nat) (ops : List (LruOp κ β)) (op : LruOp κ β) :
    run cap (ops ++ [op]) = (run cap ops).step op := by
  rw [run, List.foldl_append]
  rfl

private theorem usesFrom_concat (c : Lru κ β) (ops : List (LruOp κ β)) (op : LruOp κ β) :
    usesFrom c (ops ++ [op]) = usesFrom c ops ++ (ops.foldl step c).used op := by
  induction ops generalizing c with
  | nil => simp [usesFrom]
  | cons o ops ih => simp [usesFrom, ih]

private theorem lastSet_concat (k : κ) (ops : List (LruOp κ β)) (op : LruOp κ β) :
    lastSet k (ops ++ [op]) = (written k op).or (lastSet k ops) := by
  rw [lastSet, List.reverse_append, List.reverse_singleton, List.singleton_append, List.findSome?_cons]
  cases written k op <;> rfl

/-- The keys of the entries, the least recently used first. -/
def keys (c : Lru κ β) : List κ := c.entries.map Prod.fst

/-! ### What the operations do to the entries -/

private theorem map_fst_toEnd (k : κ) (v : β) (es : List (κ × β)) :
    (toEnd k v es).map Prod.fst = (es.map Prod.fst).filter (· ≠ k) ++ [k] := by
  rw [toEnd, others, List.map_append, List.filter_map]
  rfl

private theorem find?_eq_none_iff {k : κ} {c : Lru κ β} : c.find? k = none ↔ k ∉ c.keys := by
  simp only [find?, keys, List.find?_eq_none, decide_eq_true_eq, List.mem_map, not_exists, not_and]

private theorem get_of_notMem {k : κ} {c : Lru κ β} (hk : k ∉ c.keys) : c.get k = (none, c) := by
  unfold Lru.get
  split
  · rfl
  · rename_i e h
    exact absurd (List.mem_map_of_mem (mem_of_find? h)) hk

private theorem get_of_mem {k : κ} {c : Lru κ β} (hk : k ∈ c.keys) :
    ∃ v, (k, v) ∈ c.entries ∧ (c.get k).1 = some v ∧ (c.get k).2.entries = toEnd k v c.entries := by
  unfold Lru.get
  split
  · rename_i h
    exact absurd hk (find?_eq_none_iff.mp h)
  · rename_i e h
    exact ⟨e.2, mem_of_find? h, rfl, rfl⟩

private theorem cap_get (k : κ) (c : Lru κ β) : (c.get k).2.cap = c.cap := by
  unfold Lru.get
  split <;> rfl

private theorem cap_set (k : κ) (v : β) (c : Lru κ β) : (c.set k v).cap = c.cap := by
  unfold Lru.set
  split <;> rfl

/-- A write moves the key to the end and keeps as many keys as fit. -/
private theorem keys_set (k : κ) (v : β) (c : Lru κ β) :
    (c.set k v).keys = (c.keys.filter (· ≠ k) ++ [k]).rtake c.cap := by
  have hfst := map_fst_toEnd k v c.entries
  have hlen : (c.keys.filter (· ≠ k) ++ [k]).length = (toEnd k v c.entries).length := by
    rw [keys, ← hfst, List.length_map]
  unfold Lru.set
  split
  · rename_i h
    have hle := length_toEnd_le k v c.entries
    have hbounded := c.bounded
    have hone : (toEnd k v c.entries).length - c.cap = 1 := by omega
    rw [List.rtake, hlen, hone, List.drop_one, keys, List.map_tail, hfst]
    rfl
  · rename_i h
    rw [rtake_of_length_le (by omega), keys, hfst]
    rfl

private theorem mem_set {k : κ} {v : β} {c : Lru κ β} {e : κ × β} (he : e ∈ (c.set k v).entries) :
    e ∈ toEnd k v c.entries := by
  unfold Lru.set at he
  split at he
  · exact List.mem_of_mem_tail he
  · exact he

private theorem mem_toEnd {k : κ} {v : β} {es : List (κ × β)} {e : κ × β} (he : e ∈ toEnd k v es) :
    (e ∈ es ∧ e.1 ≠ k) ∨ e = (k, v) := by
  rcases List.mem_append.mp he with he | he
  · obtain ⟨hmem, hne⟩ := List.mem_filter.mp he
    exact Or.inl ⟨hmem, by simpa using hne⟩
  · exact Or.inr (List.mem_singleton.mp he)

/-! ### Runs -/

/-- The entries are those of the keys used most recently, in the order of their last use; each holds what
was last written to its key, and every key written to has been used. -/
structure Tracks (cap : Nat) (ops : List (LruOp κ β)) (us : List κ) (c : Lru κ β) : Prop where
  cap_eq : c.cap = cap
  keys_eq : c.keys = us.dedup.rtake cap
  last : ∀ e ∈ c.entries, lastSet e.1 ops = some e.2
  used : ∀ k, lastSet k ops ≠ none → k ∈ us

/-- The most recently used keys after one more use. -/
private theorem rtake_dedup_concat {cap : Nat} (hcap : 1 ≤ cap) (us : List κ) (k : κ) :
    (((us.dedup.rtake cap).filter (· ≠ k) ++ [k])).rtake cap = (us ++ [k]).dedup.rtake cap := by
  obtain ⟨n, rfl⟩ := Nat.exists_eq_add_of_le' hcap
  rw [dedup_concat, List.rtake_concat_succ, List.rtake_concat_succ, rtake_moved n k (List.nodup_dedup us)]

private theorem Tracks.set {cap : Nat} (hcap : 1 ≤ cap) {ops : List (LruOp κ β)} {us : List κ} {c : Lru κ β}
    (h : Tracks cap ops us c) (k : κ) (v : β) : Tracks cap (ops ++ [.set k v]) (us ++ [k]) (c.set k v) where
  cap_eq := (cap_set k v c).trans h.cap_eq
  keys_eq := by rw [keys_set, h.cap_eq, h.keys_eq, rtake_dedup_concat hcap]
  last e he := by
    rw [lastSet_concat]
    rcases mem_toEnd (mem_set he) with ⟨hmem, hne⟩ | rfl
    · rw [written, if_neg fun hk => hne hk.symm, Option.none_or, h.last e hmem]
    · rw [written, if_pos rfl, Option.some_or]
  used k' hk' := by
    rw [lastSet_concat] at hk'
    by_cases hk : k = k'
    · simp [hk]
    · rw [written, if_neg hk, Option.none_or] at hk'
      exact List.mem_append_left _ (h.used k' hk')

private theorem lastSet_get (k k' : κ) (ops : List (LruOp κ β)) :
    lastSet k (ops ++ [.get k']) = lastSet k ops := by
  rw [lastSet_concat, written, Option.none_or]

private theorem Tracks.get {cap : Nat} (hcap : 1 ≤ cap) {ops : List (LruOp κ β)} {us : List κ} {c : Lru κ β}
    (h : Tracks cap ops us c) (k : κ) : Tracks cap (ops ++ [.get k]) (us ++ c.used (.get k)) (c.get k).2 := by
  have hset : ∀ k', lastSet k' (ops ++ [.get k]) ≠ none → k' ∈ us ++ c.used (.get k) := by
    intro k' hk'
    rw [lastSet_get] at hk'
    exact List.mem_append_left _ (h.used k' hk')
  by_cases hk : k ∈ c.keys
  · -- a key that is found is used, and moves to the end
    obtain ⟨v, hmem, hfst, hentries⟩ := get_of_mem hk
    have huse : c.used (.get k) = [k] := by rw [Lru.used, hfst]; rfl
    have hlast := h.last _ hmem
    have hkeys : (c.get k).2.keys = c.keys.filter (· ≠ k) ++ [k] := by
      rw [keys, hentries, map_fst_toEnd, keys]
    have hfits : (c.get k).2.keys.length ≤ cap := by
      rw [keys, List.length_map, ← h.cap_eq, ← cap_get k c]
      exact (c.get k).2.bounded
    refine ⟨(cap_get k c).trans h.cap_eq, ?_, ?_, hset⟩
    · rw [huse, ← rtake_dedup_concat hcap, ← h.keys_eq, ← hkeys, rtake_of_length_le hfits]
    · intro e he
      rw [hentries] at he
      rw [lastSet_get]
      rcases mem_toEnd he with ⟨he, -⟩ | rfl
      · exact h.last e he
      · exact hlast
  · -- nothing changes, and nothing is used
    have hget := get_of_notMem hk
    have huse : c.used (.get k) = [] := by rw [Lru.used, hget]; rfl
    rw [huse, List.append_nil] at hset ⊢
    rw [hget]
    exact ⟨h.cap_eq, h.keys_eq, fun e he => (lastSet_get _ _ _).trans (h.last e he), hset⟩

theorem tracks_run {cap : Nat} (hcap : 1 ≤ cap) (ops : List (LruOp κ β)) :
    Tracks cap ops (uses cap ops) (run cap ops) := by
  induction ops using List.reverseRecOn with
  | nil => exact ⟨rfl, by simp [keys, run, empty, uses, usesFrom], nofun, fun k hk => absurd rfl hk⟩
  | append_singleton ops op ih =>
    have huses : uses cap (ops ++ [op]) = uses cap ops ++ (run cap ops).used op :=
      usesFrom_concat _ ops op
    rw [huses, run_concat]
    cases op with
    | set k v => exact ih.set hcap k v
    | get k => exact ih.get hcap k

/-- A read after a run finds what the run last wrote to the key if fewer other keys than the cache holds
were used since the last use of the key, and nothing otherwise; and the cache is never over its capacity.
-/
theorem get_run {cap : Nat} (hcap : 1 ≤ cap) (ops : List (LruOp κ β)) (k : κ) :
    ((run cap ops).get k).1 =
      (if (sinceLast k (uses cap ops)).dedup.length < cap then lastSet k ops else none) ∧
    (run cap ops).entries.length ≤ cap := by
  have h := tracks_run hcap ops
  refine ⟨?_, (run cap ops).bounded.trans_eq h.cap_eq⟩
  have hiff := mem_rtake_dedup_iff cap k (uses cap ops)
  rw [← h.keys_eq] at hiff
  by_cases hk : k ∈ (run cap ops).keys
  · obtain ⟨v, hmem, hfst, -⟩ := get_of_mem hk
    rw [if_pos (hiff.mp hk).2, hfst]
    exact (h.last _ hmem).symm
  · rw [get_of_notMem hk]
    split
    · rename_i hfew
      -- a key that was written to was used, and would be in the cache
      by_contra hne
      exact hk (hiff.mpr ⟨h.used k fun he => hne he.symm, hfew⟩)
    · rfl

/-- Three keys in a cache of two. -/
theorem get_run_two :
    ((run 2 [.set 1 'a', .set 2 'b', .get 1, .set 3 'c']).get 2).1 = none ∧
    ((run 2 [.set 1 'a', .set 2 'b', .get 1, .set 3 'c']).get 1).1 = some 'a' :=
  ⟨(get_run (by decide) _ _).1.trans (by decide), (get_run (by decide) _ _).1.trans (by decide)⟩

end Lru
