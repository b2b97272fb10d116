import LegalRag.Calls.Contracts
import LegalRag.Lists.Related

/-!
# Programs that run side by side

`asyncio.gather`: the calls of several programs, interleaved.  The order says which program makes the next
call, and when it is used up the rest is run one after the other; so every interleaving of a run has its
order.  The first exception that is seen ends the whole (`accords_gather`).
-/

namespace Calls

namespace Prog

variable {I : Iface} {ε α β : Type}

/-- One program after the other. -/
def sequence : List (Prog I ε α) → Prog I ε (List α)
  | [] => pure []
  | p :: ps => p >>= fun a => sequence ps >>= fun as => pure (a :: as)

/-- The programs side by side: the next call is one of the program whose position comes next in the order.
-/
def gather : List Nat → List (Prog I ε α) → Prog I ε (List α)
  | [], ps => sequence ps
  | i :: order, ps =>
    match ps[i]? with
    | some (.call o k) => .call o fun r => gather order (ps.set i (k r))
    | some (.done (.error e)) => .done (.error e)
    | _ => gather order ps

/-- An end with a value of `V`, or with an exception of `E`. -/
def Ends (V : α → Prop) (E : ε → Prop) : Except ε α → Prop
  | .ok a => V a
  | .error e => E e

section Accords

variable {R : (o : I.Op) → Except ε (I.Resp o) → Prop} {N : I.Op → Prop} {V : β → α → Prop} {E : ε → Prop}
  {bs : List β} {ps : List (Prog I ε α)}

private theorem accords_sequence
    (h : List.Forall₂ (fun b (p : Prog I ε α) => p.Accords R N (Ends (V b) E)) bs ps) :
    (sequence ps).Accords R N (Ends (List.Forall₂ V bs) E) := by
  induction h with
  | nil => exact List.Forall₂.nil
  | cons hp _ ih =>
    refine accords_bind (hp.mono fun r hr => ?_)
    cases r with
    | error e => exact hr
    | ok a =>
      refine accords_bind (ih.mono fun r hrest => ?_)
      cases r with
      | error e => exact hrest
      | ok as => exact List.Forall₂.cons hr hrest

/-- In every order the programs end as they do alone. -/
theorem accords_gather (order : List Nat)
    (h : List.Forall₂ (fun b (p : Prog I ε α) => p.Accords R N (Ends (V b) E)) bs ps) :
    (gather order ps).Accords R N (Ends (List.Forall₂ V bs) E) := by
  induction order generalizing ps with
  | nil => exact accords_sequence h
  | cons i order ih =>
    unfold gather
    cases hi : ps[i]? with
    | none => exact ih h
    | some p =>
      obtain ⟨b, -, hp⟩ := Related.exists_at h hi
      cases p with
      | done r =>
        cases r with
        | ok a => exact ih h
        | error e => exact hp
      | call o k => exact ⟨hp.1, fun r hr => ih (Related.forall₂_set h hi fun b' hb' => hb'.2 r hr)⟩

end Accords

end Prog

end Calls
