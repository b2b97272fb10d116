import Mathlib.Logic.Function.Basic

/-!
# Programs that call out

A program over an interface `I` is a tree of external calls: it returns, raises, or makes a call and goes
on with the reply.  Such trees form a monad with exceptions, so the code of a request handler or of a
background job reads as a `do` block, and one text has several meanings:

* `Prog.exec` and `Prog.log`: the run in which no call fails, and the calls it makes with the world after
each;
* `Prog.run`: the run in which the calls fail or the process dies as a list of outcomes says.

A call that fails may have taken effect before its failure was seen (`applied`).
-/

namespace Calls

/-- The external calls of a component and the type of the reply to each. -/
structure Iface where
  Op : Type
  Resp : Op → Type

/-- A program over the calls of `I` that returns an `α` or raises an `ε`. -/
inductive Prog (I : Iface) (ε α : Type) : Type where
  | done (r : Except ε α)
  | call (o : I.Op) (k : Except ε (I.Resp o) → Prog I ε α)

/-- What a call replies and how it changes the world when nothing outside goes wrong. -/
abbrev Handler (I : Iface) (ε W : Type) : Type := (o : I.Op) → W → Except ε (I.Resp o) × W

variable {I : Iface} {ε α β γ W : Type}

namespace Prog

/-- Go on with `f` from the value of a reply; an exception is raised. -/
def cont (f : α → Prog I ε β) : Except ε α → Prog I ε β
  | .ok a => f a
  | .error e => .done (.error e)

/-- Run `p`, then `f` on what it returns; an exception skips `f`. -/
def bind : Prog I ε α → (α → Prog I ε β) → Prog I ε β
  | .done r, f => cont f r
  | .call o k, f => .call o fun r => (k r).bind f

/-- Run `p`, and `h` on the exception it raises. -/
def handle (h : ε → Prog I ε α) : Prog I ε α → Prog I ε α
  | .done (.ok a) => .done (.ok a)
  | .done (.error e) => h e
  | .call o k => .call o fun r => (k r).handle h

instance : Monad (Prog I ε) where
  pure a := .done (.ok a)
  bind := Prog.bind

instance : MonadExceptOf ε (Prog I ε) where
  throw e := .done (.error e)
  tryCatch p h := p.handle h

/-- Make one call and return its reply. -/
def perform (o : I.Op) : Prog I ε (I.Resp o) := .call o .done

@[simp] theorem pure_def (a : α) : (pure a : Prog I ε α) = .done (.ok a) := rfl

@[simp] theorem throw_def (e : ε) : (throw e : Prog I ε α) = .done (.error e) := rfl

@[simp] theorem tryCatch_def (p : Prog I ε α) (h : ε → Prog I ε α) : tryCatch p h = p.handle h := rfl

@[simp] theorem bind_call (o : I.Op) (k : Except ε (I.Resp o) → Prog I ε α) (f : α → Prog I ε β) :
    .call o k >>= f = .call o fun r => k r >>= f := rfl

@[simp] theorem cont_ok (f : α → Prog I ε β) (a : α) : cont f (.ok a) = f a := rfl

@[simp] theorem cont_error (f : α → Prog I ε β) (e : ε) : cont f (.error e) = .done (.error e) := rfl

@[simp] theorem done_bind (r : Except ε α) (f : α → Prog I ε β) :
    (.done r : Prog I ε α) >>= f = cont f r := rfl

@[simp] theorem perform_bind (o : I.Op) (f : I.Resp o → Prog I ε β) :
    perform o >>= f = .call o (cont f) := rfl

@[simp] theorem handle_ok (h : ε → Prog I ε α) (a : α) : (.done (.ok a) : Prog I ε α).handle h =
    .done (.ok a) := rfl

@[simp] theorem handle_error (h : ε → Prog I ε α) (e : ε) :
    (.done (.error e) : Prog I ε α).handle h = h e := rfl

@[simp] theorem handle_call (h : ε → Prog I ε α) (o : I.Op) (k : Except ε (I.Resp o) → Prog I ε α) :
    (.call o k : Prog I ε α).handle h = .call o fun r => (k r).handle h := rfl

instance : LawfulMonad (Prog I ε) := by
  refine LawfulMonad.mk' (Prog I ε) (fun p => ?_) (fun _ _ => rfl) (fun p f g => ?_)
  · induction p with
    | done r => cases r <;> rfl
    | call o k ih => exact congrArg (Prog.call o) (funext ih)
  · induction p with
    | done r => cases r <;> rfl
    | call o k ih => exact congrArg (Prog.call o) (funext ih)

/-! ### The run in which no call fails -/

/-- The result of `p` from the world `w`, and the world it leaves. -/
def exec (h : Handler I ε W) : Prog I ε α → W → Except ε α × W
  | .done r, w => (r, w)
  | .call o k, w => (k (h o w).1).exec h (h o w).2

/-- The calls `p` makes from the world `w`, each with the world right after it. -/
def log (h : Handler I ε W) : Prog I ε α → W → List (I.Op × W)
  | .done _, _ => []
  | .call o k, w => (o, (h o w).2) :: (k (h o w).1).log h (h o w).2

@[simp] theorem exec_done (h : Handler I ε W) (r : Except ε α) (w : W) :
    (.done r : Prog I ε α).exec h w = (r, w) :=
  rfl

@[simp] theorem exec_call (h : Handler I ε W) (o : I.Op) (k : Except ε (I.Resp o) → Prog I ε α) (w : W) :
    (.call o k : Prog I ε α).exec h w = (k (h o w).1).exec h (h o w).2 := rfl

@[simp] theorem log_done (h : Handler I ε W) (r : Except ε α) (w : W) :
    (.done r : Prog I ε α).log h w = [] := rfl

@[simp] theorem log_call (h : Handler I ε W) (o : I.Op) (k : Except ε (I.Resp o) → Prog I ε α) (w : W) :
    (.call o k : Prog I ε α).log h w = (o, (h o w).2) :: (k (h o w).1).log h (h o w).2 := rfl

theorem exec_bind (h : Handler I ε W) (p : Prog I ε α) (f : α → Prog I ε β) (w : W) :
    (p >>= f).exec h w = (cont f (p.exec h w).1).exec h (p.exec h w).2 := by
  induction p generalizing w with
  | done r => rw [done_bind, exec_done]
  | call o k ih => exact ih _ _

theorem log_bind (h : Handler I ε W) (p : Prog I ε α) (f : α → Prog I ε β) (w : W) :
    (p >>= f).log h w = p.log h w ++ (cont f (p.exec h w).1).log h (p.exec h w).2 := by
  induction p generalizing w with
  | done r => rw [done_bind, exec_done, log_done, List.nil_append]
  | call o k ih => simp only [bind_call, log_call, exec_call, List.cons_append, ih]

theorem exec_handle (h : Handler I ε W) (p : Prog I ε α) (c : ε → Prog I ε α) (w : W) :
    (p.handle c).exec h w = ((.done (p.exec h w).1 : Prog I ε α).handle c).exec h (p.exec h w).2 := by
  induction p generalizing w with
  | done r => rfl
  | call o k ih => exact ih _ _

theorem log_handle (h : Handler I ε W) (p : Prog I ε α) (c : ε → Prog I ε α) (w : W) :
    (p.handle c).log h w =
      p.log h w ++ ((.done (p.exec h w).1 : Prog I ε α).handle c).log h (p.exec h w).2 := by
  induction p generalizing w with
  | done r => rfl
  | call o k ih => simp only [handle_call, log_call, exec_call, List.cons_append, ih]

end Prog

/-! ### Runs with faults -/

/-- How one call ends: as the handler says, with an exception raised on the way, or with the death of the
process. The last two may come after the call took effect. -/
inductive Outcome (ε : Type) where
  | ok
  | raised (e : ε) (applied : Bool)
  | crashed (applied : Bool)
  deriving DecidableEq, Repr

/-- The world after a call with a given outcome. -/
def Outcome.world (h : Handler I ε W) (o : I.Op) (w : W) : Outcome ε → W
  | .ok => (h o w).2
  | .raised _ applied => if applied then (h o w).2 else w
  | .crashed applied => if applied then (h o w).2 else w

/-- Whether the call took effect. -/
def Outcome.applied : Outcome ε → Bool
  | .ok => true
  | .raised _ applied | .crashed applied => applied

theorem Outcome.world_of_applied {h : Handler I ε W} {o : I.Op} {w : W} {out : Outcome ε}
    (ha : out.applied = true) : out.world h o w = (h o w).2 := by
  cases out with
  | ok => rfl
  | raised e applied => exact if_pos ha
  | crashed applied => exact if_pos ha

theorem Outcome.world_of_not_applied {h : Handler I ε W} {o : I.Op} {w : W} {out : Outcome ε}
    (ha : out.applied = false) : out.world h o w = w := by
  cases out with
  | ok => cases ha
  | raised e applied => exact if_neg (by simpa [Outcome.applied] using ha)
  | crashed applied => exact if_neg (by simpa [Outcome.applied] using ha)

/-- What the program sees of a call with a given outcome; nothing after a crash. -/
def Outcome.reply (h : Handler I ε W) (o : I.Op) (w : W) : Outcome ε → Option (Except ε (I.Resp o))
  | .ok => some (h o w).1
  | .raised e _ => some (.error e)
  | .crashed _ => none

/-- A value that the program sees is the handler's. -/
theorem Outcome.handler_ok {h : Handler I ε W} {o : I.Op} {w : W} {out : Outcome ε} {a : I.Resp o}
    (hr : out.reply h o w = some (.ok a)) : (h o w).1 = .ok a := by
  cases out with
  | ok => exact Option.some.inj hr
  | raised e applied => cases Option.some.inj hr
  | crashed applied => cases hr

/-- A call leaves the world as it was or as the handler changes it, whatever its outcome. -/
theorem Outcome.world_eq (h : Handler I ε W) (o : I.Op) (w : W) (out : Outcome ε) :
    out.world h o w = w ∨ out.world h o w = (h o w).2 := by
  cases out with
  | ok => exact Or.inr rfl
  | raised e applied => cases applied <;> simp [Outcome.world]
  | crashed applied => cases applied <;> simp [Outcome.world]

/-- The run of `p` whose successive calls end as `outs` says (and well once `outs` is used up): the
result, if the process lives to see one, and the world it leaves. -/
def Prog.run (h : Handler I ε W) : List (Outcome ε) → Prog I ε α → W → Option (Except ε α) × W
  | _, .done r, w => (some r, w)
  | outs, .call o k, w =>
    match (outs.headD .ok).reply h o w with
    | some r => (k r).run h outs.tail ((outs.headD .ok).world h o w)
    | none => (none, (outs.headD .ok).world h o w)

theorem Prog.run_nil (h : Handler I ε W) (p : Prog I ε α) (w : W) :
    p.run h [] w = (some (p.exec h w).1, (p.exec h w).2) := by
  induction p generalizing w with
  | done r => rfl
  | call o k ih => exact ih _ _

end Calls
