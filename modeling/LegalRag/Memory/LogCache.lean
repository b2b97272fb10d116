import LegalRag.Redis.Lists

/-!
# A trimmed copy of a log

A log is stored in full, and a buffer is meant to hold its last `n` entries.  Entries are appended to
both; the buffer can be lost.  `ask` appends an entry to the log first, refills an empty buffer with the
last `r` entries of the log, and then appends the entry to the buffer as well; `answer` appends to both.

* `answer_faithful`: an append to a faithful buffer keeps it faithful;
* `ask_faithful_iff`: an `ask` that finds the buffer lost makes it faithful exactly when the last entries
of the log all equal the one it appends (`Harmless`);
* `appends_faithful_iff`, `next_good`: the same for a turn, answered or not, and what a run keeps.
-/

namespace LogCache

open Redis

variable {α : Type}

/-- A log and the buffer that copies its end. -/
structure State (α : Type) where
  stored : List α
  buf : List α

/-- The buffer holds the last `n` entries of the log. -/
def Faithful (n : Nat) (s : State α) : Prop := s.buf = s.stored.rtake n

/-- The buffer is lost. -/
def lose (s : State α) : State α := ⟨s.stored, []⟩

/-- An empty buffer is refilled with what was read from the log. -/
def warm (n r : Nat) (s : State α) : State α :=
  if s.buf.isEmpty then ⟨s.stored, lastUpTo n (s.stored.rtake r)⟩ else s

/-- An entry is appended to the buffer. -/
def push (n : Nat) (x : α) (s : State α) : State α := ⟨s.stored, lastUpTo n (s.buf ++ [x])⟩

/-- An entry is appended to the log. -/
def store (x : α) (s : State α) : State α := ⟨s.stored ++ [x], s.buf⟩

/-- A question: stored, the buffer made warm, and then appended to it. -/
def ask (n r : Nat) (x : α) (s : State α) : State α := push n x (warm n r (store x s))

/-- An answer: stored, and appended to the buffer. -/
def answer (n : Nat) (a : α) (s : State α) : State α := push n a (store a s)

/-- The last entries of the log are as many as the refilled buffer will hold, and all the same. -/
def Harmless (n r : Nat) (stored : List α) (x : α) : Prop :=
  min n (r + 1) ≤ stored.length ∧ (∀ y ∈ stored.rtake (min n (r + 1)), y = x) ∧
    (n ≤ r + 1 ∨ stored.length = r + 1)

theorem answer_faithful {n : Nat} (hn : 1 ≤ n) (a : α) {s : State α} (hs : Faithful n s) :
    Faithful n (answer n a s) := by
  unfold Faithful at *
  simp only [answer, push, store]
  rw [lastUpTo_eq_rtake hn, hs, rtake_append_rtake]

/-- Rotating a list to the left and putting `x` at its end changes nothing only if the list is all `x`. -/
private theorem tail_append_eq_self_iff (l : List α) (x : α) (hl : l ≠ []) :
    l.tail ++ [x] = l ↔ ∀ y ∈ l, y = x := by
  induction l with
  | nil => exact absurd rfl hl
  | cons a t ih =>
    cases t with
    | nil => simp [eq_comm]
    | cons b t =>
      simp only [List.tail_cons, ne_eq, reduceCtorEq, not_false_eq_true, forall_const, List.mem_cons,
        forall_eq_or_imp] at ih ⊢
      constructor
      · intro h
        simp only [List.cons_append, List.cons.injEq] at h
        obtain ⟨rfl, h⟩ := h
        have := ih.mp h
        exact ⟨this.1, this⟩
      · rintro ⟨rfl, rfl, h⟩
        rw [List.cons_append, ih.mpr ⟨rfl, h⟩]

/-- What a warm-up makes of a lost buffer once the entry is appended to it. -/
private theorem push_refill {n : Nat} (hn : 1 ≤ n) (r : Nat) (stored : List α) (x : α) :
    lastUpTo n (lastUpTo n (stored.rtake r) ++ [x]) =
      if min n (r + 1) ≤ stored.length then (stored.rtake (min n (r + 1))).tail ++ [x]
      else stored ++ [x] := by
  rw [lastUpTo_eq_rtake hn, lastUpTo_eq_rtake hn, rtake_rtake]
  split
  · rename_i hk
    rcases Nat.lt_or_ge r n with hr | hr
    · have htail : (stored.rtake (r + 1)).tail = stored.rtake r := by
        rw [List.rtake, List.tail_drop, List.rtake]
        congr 1
        omega
      rw [Nat.min_eq_right (by omega), Nat.min_eq_right (by omega), htail]
      exact rtake_of_length_le (by rw [List.length_append, length_rtake, List.length_singleton]; omega)
    · rw [Nat.min_eq_left hr, Nat.min_eq_left (by omega)]
      have hlen : (stored.rtake n).length = n := by rw [length_rtake]; omega
      have hne : stored.rtake n ≠ [] := List.ne_nil_of_length_pos (by omega)
      rw [List.rtake, List.length_append, List.length_singleton, hlen, Nat.add_sub_cancel_left, List.drop_one,
        List.tail_append_of_ne_nil hne]
  · rename_i hk
    rw [rtake_of_length_le (by omega : stored.length ≤ min n r)]
    exact rtake_of_length_le (by rw [List.length_append, List.length_singleton]; omega)

/-- A question that finds the buffer lost. -/
private theorem refill_faithful_iff {n : Nat} (hn : 1 ≤ n) (r : Nat) (x : α) (stored : List α) :
    lastUpTo n (lastUpTo n (stored.rtake r) ++ [x]) = stored.rtake n ↔ Harmless n r stored x := by
  rw [push_refill hn, Harmless]
  split
  · rename_i hk
    have hne : stored.rtake (min n (r + 1)) ≠ [] :=
      List.ne_nil_of_length_pos (by rw [length_rtake]; omega)
    rw [← tail_append_eq_self_iff _ _ hne]
    by_cases hsize : n ≤ r + 1 ∨ stored.length = r + 1
    · have hsame : stored.rtake n = stored.rtake (min n (r + 1)) := by
        rcases hsize with h | h
        · rw [Nat.min_eq_left h]
        · rcases Nat.le_total n (r + 1) with h' | h'
          · rw [Nat.min_eq_left h']
          · rw [Nat.min_eq_right h', rtake_of_length_le (by omega), rtake_of_length_le (by omega)]
      rw [hsame]
      simp [hk, hsize]
    · -- the buffer holds fewer entries than it should
      have hlen : ((stored.rtake (min n (r + 1))).tail ++ [x]).length ≠ (stored.rtake n).length := by
        rw [List.length_append, List.length_tail, length_rtake, length_rtake, List.length_singleton]
        omega
      exact iff_of_false (fun h => hlen (congrArg List.length h)) fun h => hsize h.2.2
  · rename_i hk
    refine iff_of_false (fun h => ?_) fun h => hk h.1
    have := congrArg List.length h
    rw [List.length_append, length_rtake, List.length_singleton] at this
    omega

theorem ask_faithful_iff {n : Nat} (hn : 1 ≤ n) (r : Nat) (x : α) {s : State α}
    (hs : s.buf = [] ∨ Faithful n s) :
    Faithful n (ask n r x s) ↔ s.buf ≠ [] ∨ Harmless n r (s.stored ++ [x]) x := by
  by_cases hb : s.buf = []
  · have hask : ask n r x s = ⟨s.stored ++ [x],
        lastUpTo n (lastUpTo n ((s.stored ++ [x]).rtake r) ++ [x])⟩ := by
      simp [ask, warm, push, store, hb]
    rw [hask, Faithful, refill_faithful_iff hn]
    simp [hb]
  · have hask : ask n r x s = answer n x s := by simp [ask, answer, warm, store, hb]
    rw [hask]
    exact iff_of_true (answer_faithful hn x (hs.resolve_left hb)) (Or.inl hb)

/-! ### Turns -/

/-- A turn asks, and may be answered; between turns the buffer may be lost. -/
inductive Event (α : Type) where
  | turn (x : α) (a : Option α)
  | lost

/-- The states after each append of an event to the buffer. -/
def appends (n r : Nat) (s : State α) : Event α → List (State α)
  | .turn x none => [ask n r x s]
  | .turn x (some a) => [ask n r x s, answer n a (ask n r x s)]
  | .lost => []

/-- The state after an event. -/
def next (n r : Nat) (s : State α) : Event α → State α
  | .turn x none => ask n r x s
  | .turn x (some a) => answer n a (ask n r x s)
  | .lost => lose s

/-- The buffer is not lost when the turn asks, or losing it does no harm. -/
def TurnOk (n r : Nat) (s : State α) : Event α → Prop
  | .turn x _ => s.buf ≠ [] ∨ Harmless n r (s.stored ++ [x]) x
  | .lost => True

theorem appends_faithful_iff {n : Nat} (hn : 1 ≤ n) (r : Nat) {s : State α} (hs : s.buf = [] ∨ Faithful n s)
    (e : Event α) : (∀ t ∈ appends n r s e, Faithful n t) ↔ TurnOk n r s e := by
  cases e with
  | lost => simp [appends, TurnOk]
  | turn x a =>
    rw [TurnOk, ← ask_faithful_iff hn r x hs]
    cases a with
    | none => simp [appends]
    | some a =>
      simp only [appends, List.mem_cons, List.not_mem_nil, or_false, forall_eq_or_imp, forall_eq,
        and_iff_left_iff_imp]
      exact answer_faithful hn a

/-- A buffer that was lost or faithful is so after a turn whose appends are faithful. -/
theorem next_good {n : Nat} (r : Nat) {s : State α} {e : Event α} (h : ∀ t ∈ appends n r s e, Faithful n t) :
    (next n r s e).buf = [] ∨ Faithful n (next n r s e) := by
  cases e with
  | lost => exact Or.inl rfl
  | turn x a =>
    cases a with
    | none => exact Or.inr (h _ (by simp [appends, next]))
    | some a => exact Or.inr (h _ (by simp [appends, next]))

end LogCache
