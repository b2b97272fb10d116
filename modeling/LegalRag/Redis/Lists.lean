import Mathlib.Data.List.DropRight
import Mathlib.Data.List.Infix

/-!
# Lists in Redis and slices in Python

Both count positions from the end with negative numbers, and both clip what is out of range.

* `lrange`, `ltrim`: the elements from one position to another, ends included;
* `sliceFrom`, `sliceTo`: `l[i:]` and `l[:i]`; `slices`: the list cut into pieces.

The last `n` elements are `List.rtake n`, for all of them when `n = 0` (`-0` is `0`): `lastUpTo`.
-/

namespace Redis

variable {α : Type}

/-- The position an index means in a list of length `n`: a negative one counts from the end. -/
def position (n : Nat) (i : Int) : Int := if i < 0 then max 0 (n + i) else i

/-- `LRANGE start stop`: the elements from `start` to `stop`, included. -/
def lrange (start stop : Int) (l : List α) : List α :=
  let i := position l.length start
  let j := if stop < 0 then l.length + stop else stop
  if j < i then [] else (l.drop i.toNat).take (j - i + 1).toNat

/-- `LTRIM start stop` keeps what `LRANGE` reads. -/
def ltrim (start stop : Int) (l : List α) : List α := lrange start stop l

/-- `l[i:]` in Python. -/
def sliceFrom (i : Int) (l : List α) : List α := l.drop (position l.length i).toNat

/-- `l[:i]` in Python. -/
def sliceTo (i : Int) (l : List α) : List α := l.take (position l.length i).toNat

/-- `l[i : i + size]` for `i` in `range(0, len(l), size)`. -/
def slices (size : Nat) (l : List α) : List (List α) :=
  (List.range ((l.length + size - 1) / size)).map fun i => (l.drop (size * i)).take size

/-- The last `n` elements; the whole list for `n = 0`. -/
def lastUpTo (n : Nat) (l : List α) : List α := if n = 0 then l else l.rtake n

theorem lrange_all (l : List α) : lrange 0 (-1) l = l := by
  cases l with
  | nil => rfl
  | cons a l =>
    have hlen : (((a :: l).length : Int) + -1 - 0 + 1).toNat = (a :: l).length := by omega
    simp only [lrange, position, Int.reduceLT, if_false, if_true, Int.toNat_zero, List.drop_zero, hlen,
      List.take_length]
    exact if_neg (by simp only [List.length_cons]; omega)

theorem lastUpTo_eq_rtake {n : Nat} (hn : 1 ≤ n) (l : List α) : lastUpTo n l = l.rtake n :=
  if_neg (by omega)

private theorem position_neg {n : Nat} (hn : 1 ≤ n) (k : Nat) : position k (-n) = ((k - n : Nat) : Int) := by
  rw [position, if_pos (by omega)]
  omega

theorem sliceFrom_neg (n : Nat) (l : List α) : sliceFrom (-n) l = lastUpTo n l := by
  rcases Nat.eq_zero_or_pos n with rfl | hn
  · simp [sliceFrom, position, lastUpTo]
  · rw [sliceFrom, position_neg hn, Int.toNat_natCast, lastUpTo_eq_rtake hn, List.rtake]

theorem ltrim_neg (n : Nat) (l : List α) : ltrim (-n) (-1) l = lastUpTo n l := by
  rcases Nat.eq_zero_or_pos n with rfl | hn
  · simpa [ltrim, lastUpTo] using lrange_all l
  · rw [lastUpTo_eq_rtake hn, List.rtake, ltrim, lrange]
    simp only [position_neg hn, Int.toNat_natCast, Int.reduceLT, if_true]
    split
    · rename_i hlt
      exact (List.drop_eq_nil_of_le (by omega)).symm
    · exact List.take_of_length_le (by rw [List.length_drop]; omega)

/-- What is appended stays at the end. -/
theorem getLast?_lastUpTo_append (n : Nat) (l : List α) (a : α) :
    (lastUpTo n (l ++ [a])).getLast? = some a := by
  cases n with
  | zero => simp [lastUpTo]
  | succ n => rw [lastUpTo_eq_rtake (by omega), List.rtake_concat_succ, List.getLast?_concat]

theorem slices_nil {size : Nat} (hsize : 0 < size) : slices size ([] : List α) = [] := by
  have hzero : (([] : List α).length + size - 1) / size = 0 :=
    Nat.div_eq_of_lt (by simp only [List.length_nil]; omega)
  rw [slices, hzero]
  rfl

theorem slices_singleton {size : Nat} (hsize : 0 < size) (a : α) : slices size [a] = [[a]] := by
  have hone : ([a].length + size - 1) / size = 1 := by
    rw [List.length_singleton, Nat.add_sub_cancel_left, Nat.div_self hsize]
  unfold slices
  rw [hone]
  show [([a].drop (size * 0)).take size] = [[a]]
  rw [Nat.mul_zero, List.drop_zero, List.take_of_length_le hsize]

/-- The slices make up the list. -/
theorem flatten_slices {size : Nat} (hsize : 0 < size) (l : List α) : (slices size l).flatten = l := by
  have hgo : ∀ k, ((List.range k).map fun i => (l.drop (size * i)).take size).flatten =
      l.take (size * k) := by
    intro k
    induction k with
    | zero => simp
    | succ k ih =>
      rw [List.range_succ, List.map_append, List.flatten_append, ih, Nat.mul_succ, List.take_add]
      simp
  rw [slices, hgo]
  refine List.take_of_length_le ?_
  have hdiv : l.length + size - 1 < size * ((l.length + size - 1) / size + 1) :=
    Nat.lt_mul_div_succ _ hsize
  rw [Nat.mul_succ] at hdiv
  omega

theorem length_le_of_mem_slices {size : Nat} {l b : List α} (h : b ∈ slices size l) : b.length ≤ size := by
  obtain ⟨i, -, rfl⟩ := List.mem_map.mp h
  exact List.length_take_le ..

theorem mem_of_mem_slices {size : Nat} {l b : List α} (h : b ∈ slices size l) {a : α} (ha : a ∈ b) :
    a ∈ l := by
  obtain ⟨i, -, rfl⟩ := List.mem_map.mp h
  exact List.mem_of_mem_drop (List.mem_of_mem_take ha)

/-! ### The last elements of a list -/

theorem length_rtake (n : Nat) (l : List α) : (l.rtake n).length = min n l.length := by
  rw [List.rtake, List.length_drop]
  omega

theorem rtake_of_length_le {n : Nat} {l : List α} (h : l.length ≤ n) : l.rtake n = l := by
  rw [List.rtake, Nat.sub_eq_zero_of_le h, List.drop_zero]

theorem rtake_rtake (m n : Nat) (l : List α) : (l.rtake n).rtake m = l.rtake (min m n) := by
  rw [List.rtake, length_rtake, List.rtake, List.rtake, List.drop_drop]
  congr 1
  omega

/-- Trimming before an append changes nothing. -/
theorem rtake_append_rtake (n : Nat) (l : List α) (a : α) :
    (l.rtake n ++ [a]).rtake n = (l ++ [a]).rtake n := by
  cases n with
  | zero => simp
  | succ n => rw [List.rtake_concat_succ, List.rtake_concat_succ, rtake_rtake, Nat.min_eq_left (by omega)]

/-- The same for a buffer of any size. -/
theorem lastUpTo_append_lastUpTo (n : Nat) (l : List α) (a : α) :
    lastUpTo n (lastUpTo n l ++ [a]) = lastUpTo n (l ++ [a]) := by
  rcases Nat.eq_zero_or_pos n with rfl | hn
  · simp [lastUpTo]
  · simp only [lastUpTo_eq_rtake hn, rtake_append_rtake]

theorem map_rtake {β : Type} (f : α → β) (n : Nat) (l : List α) : (l.rtake n).map f = (l.map f).rtake n := by
  rw [List.rtake, List.rtake, List.map_drop, List.length_map]

end Redis
