import LegalRag.Calls.Program

/-!
# What is said in a run

`Prog.exchanges` lists the calls of a run with faults, each with what the program sees of it.
`Prog.Tells R C p` is about all runs of `p` at once: the calls with their replies, and the result, satisfy
`C`, as long as the values that come back are ones that `R` allows.

* the rules follow the shape of a program: `tells_call`, `tells_bind`, `tells_map`;
* `tells_run`: a program with `Tells` meets it on every run, from every world and for every list of
outcomes.
-/

namespace Calls

/-- A call and what the program sees of it; nothing if the process dies in the call. -/
structure Exchange (I : Iface) (ε : Type) where
  op : I.Op
  reply : Option (Except ε (I.Resp op))

variable {I : Iface} {ε α β W : Type}

/-- The call returned a value. -/
def Exchange.Succeeds (x : Exchange I ε) : Prop := ∃ a, x.reply = some (.ok a)

/-- The program returns a value if and only if every call succeeded. -/
def Concludes (xs : List (Exchange I ε)) (r : Option (Except ε α)) : Prop :=
  (∃ a, r = some (.ok a)) ↔ ∀ x ∈ xs, x.Succeeds

section Concludes

variable {xs ys : List (Exchange I ε)} {r : Option (Except ε α)}

theorem concludes_done (a : α) : Concludes ([] : List (Exchange I ε)) (some (.ok a)) :=
  ⟨fun _ _ hx => absurd hx List.not_mem_nil, fun _ => ⟨a, rfl⟩⟩

/-- Neither the program nor its last call comes to a value. -/
private theorem concludes_failed {x : Exchange I ε} (hx : ¬ x.Succeeds) (hr : ∀ a, r ≠ some (.ok a)) :
    Concludes [x] r := by
  constructor
  · rintro ⟨a, ha⟩
    exact absurd ha (hr a)
  · intro h
    exact absurd (h x (List.mem_singleton_self x)) hx

theorem concludes_crash (o : I.Op) : Concludes [(⟨o, none⟩ : Exchange I ε)] (none : Option (Except ε α)) := by
  refine concludes_failed ?_ fun a h => ?_
  · rintro ⟨a, h⟩
    cases h
  · cases h

theorem concludes_error (o : I.Op) (e : ε) :
    Concludes [(⟨o, some (.error e)⟩ : Exchange I ε)] (some (.error e) : Option (Except ε α)) := by
  refine concludes_failed ?_ fun a h => ?_
  · rintro ⟨a, h⟩
    cases h
  · cases h

/-- Calls that have succeeded come before. -/
theorem Concludes.append (h : Concludes ys r) (hxs : ∀ x ∈ xs, x.Succeeds) : Concludes (xs ++ ys) r := by
  refine h.trans ?_
  rw [List.forall_mem_append]
  exact (and_iff_right hxs).symm

theorem Concludes.cons (h : Concludes xs r) (o : I.Op) (a : I.Resp o) :
    Concludes (⟨o, some (.ok a)⟩ :: xs) r := by
  show Concludes ([⟨o, some (.ok a)⟩] ++ xs) r
  refine h.append fun x hx => ?_
  obtain rfl := List.mem_singleton.mp hx
  exact ⟨a, rfl⟩

/-- Whatever the failure. -/
theorem Concludes.failed {s : Option (Except ε β)} (h : Concludes xs r) (hr : ∀ a, r ≠ some (.ok a))
    (hs : ∀ b, s ≠ some (.ok b)) : Concludes xs s := by
  refine Iff.trans ⟨?_, ?_⟩ h
  · rintro ⟨b, hb⟩
    exact absurd hb (hs b)
  · rintro ⟨a, ha⟩
    exact absurd ha (hr a)

theorem ok_of_map {f : α → β} {b : β} (h : r.map (Except.map f) = some (.ok b)) :
    ∃ a, r = some (.ok a) ∧ f a = b := by
  cases r with
  | none => cases h
  | some r =>
    cases r with
    | ok a => exact ⟨a, rfl, Except.ok.inj (Option.some.inj h)⟩
    | error e => cases h

theorem Concludes.map (h : Concludes xs r) (f : α → β) : Concludes xs (r.map (Except.map f)) := by
  refine Iff.trans ⟨?_, ?_⟩ h
  · rintro ⟨b, hb⟩
    obtain ⟨a, ha, -⟩ := ok_of_map hb
    exact ⟨a, ha⟩
  · rintro ⟨a, rfl⟩
    exact ⟨f a, rfl⟩

end Concludes

namespace Prog

variable {R : (o : I.Op) → I.Resp o → Prop}

/-- The calls of a run with their replies, up to the end of the program or of the process. -/
def exchanges (h : Handler I ε W) : List (Outcome ε) → Prog I ε α → W → List (Exchange I ε)
  | _, .done _, _ => []
  | outs, .call o k, w =>
    ⟨o, (outs.headD .ok).reply h o w⟩ ::
      match (outs.headD .ok).reply h o w with
      | some r => (k r).exchanges h outs.tail ((outs.headD .ok).world h o w)
      | none => []

/-- While the values that come back satisfy `R`, what is said and the result satisfy `C`. -/
def Tells (R : (o : I.Op) → I.Resp o → Prop) :
    Prog I ε α → (List (Exchange I ε) → Option (Except ε α) → Prop) → Prop
  | .done r, C => C [] (some r)
  | .call o k, C =>
    C [⟨o, none⟩] none ∧
      (∀ a, R o a → (k (.ok a)).Tells R fun xs r => C (⟨o, some (.ok a)⟩ :: xs) r) ∧
      ∀ e, (k (.error e)).Tells R fun xs r => C (⟨o, some (.error e)⟩ :: xs) r

/-- What is left to show of `f` once a program before it has ended. -/
def Continues (R : (o : I.Op) → I.Resp o → Prop) (f : α → Prog I ε β)
    (C : List (Exchange I ε) → Option (Except ε β) → Prop) (xs : List (Exchange I ε)) :
    Option (Except ε α) → Prop
  | some (.ok a) => (f a).Tells R fun ys r => C (xs ++ ys) r
  | some (.error e) => C xs (some (.error e))
  | none => C xs none

theorem Tells.mono {p : Prog I ε α} {C C' : List (Exchange I ε) → Option (Except ε α) → Prop}
    (hp : p.Tells R C) (hC : ∀ xs r, C xs r → C' xs r) : p.Tells R C' := by
  induction p generalizing C C' with
  | done r => exact hC _ _ hp
  | call o k ih =>
    obtain ⟨hcrash, hok, herr⟩ := hp
    refine ⟨hC _ _ hcrash, fun a ha => ?_, fun e => ?_⟩
    · exact ih _ (hok a ha) fun xs r => hC _ _
    · exact ih _ (herr e) fun xs r => hC _ _

/-- What is said before the program moves over into the condition. -/
private theorem continues_of_cons {f : α → Prog I ε β} {C : List (Exchange I ε) → Option (Except ε β) → Prop}
    {x : Exchange I ε} {xs : List (Exchange I ε)} {r : Option (Except ε α)}
    (h : Continues R f C (x :: xs) r) : Continues R f (fun ys s => C (x :: ys) s) xs r := by
  cases r with
  | none => exact h
  | some r =>
    cases r with
    | ok a => exact h
    | error e => exact h

theorem tells_bind {p : Prog I ε α} {f : α → Prog I ε β}
    {C : List (Exchange I ε) → Option (Except ε β) → Prop} (hp : p.Tells R (Continues R f C)) :
    (p >>= f).Tells R C := by
  induction p generalizing C with
  | done r =>
    cases r with
    | ok a => exact hp
    | error e => exact hp
  | call o k ih =>
    obtain ⟨hcrash, hok, herr⟩ := hp
    refine ⟨hcrash, fun a ha => ?_, fun e => ?_⟩
    · exact ih _ ((hok a ha).mono fun xs r => continues_of_cons)
    · exact ih _ ((herr e).mono fun xs r => continues_of_cons)

/-- A single call comes first. -/
theorem tells_call {o : I.Op} {f : I.Resp o → Prog I ε α}
    {C : List (Exchange I ε) → Option (Except ε α) → Prop} (hcrash : C [⟨o, none⟩] none)
    (herr : ∀ e, C [⟨o, some (.error e)⟩] (some (.error e)))
    (hok : ∀ a, R o a → (f a).Tells R fun xs r => C (⟨o, some (.ok a)⟩ :: xs) r) :
    (perform o >>= f).Tells R C := ⟨hcrash, hok, herr⟩

/-- The result is changed at the end. -/
theorem tells_map {p : Prog I ε α} (f : α → β) {C : List (Exchange I ε) → Option (Except ε β) → Prop}
    (hp : p.Tells R fun xs r => C xs (r.map (Except.map f))) : (p >>= fun a => pure (f a)).Tells R C := by
  refine tells_bind (hp.mono fun xs r h => ?_)
  cases r with
  | none => exact h
  | some r =>
    cases r with
    | ok a =>
      show C (xs ++ []) (some (.ok (f a)))
      rw [List.append_nil]
      exact h
    | error e => exact h

/-- What a program tells is so in all of its runs. -/
theorem tells_run {h : Handler I ε W} (hreply : ∀ o w a, (h o w).1 = .ok a → R o a) {p : Prog I ε α}
    {C : List (Exchange I ε) → Option (Except ε α) → Prop} (hp : p.Tells R C) (outs : List (Outcome ε))
    (w : W) : C (p.exchanges h outs w) (p.run h outs w).1 := by
  induction p generalizing C outs w with
  | done r => exact hp
  | call o k ih =>
    obtain ⟨hcrash, hok, herr⟩ := hp
    unfold exchanges run
    cases hr : (outs.headD .ok).reply h o w with
    | none => exact hcrash
    | some r =>
      cases r with
      | ok a => exact ih _ (hok a (hreply o w a (Outcome.handler_ok hr))) _ _
      | error e => exact ih _ (herr e) _ _

end Prog

end Calls
