import LegalRag.Calls.Effects
import LegalRag.Calls.Protocol

/-!
# Exactly when a run keeps a promise

`Prog.Exact h A B inv post` is a Hoare logic for runs with faults, among the outcomes of `B`, that keeps
account of whether the outcomes so far were also among those of `A`: the postcondition is told.  So it can
say that a run ends well if and only if its outcomes are of `A` (`exact_run`).

* the rules follow the shape of a program: `exact_done`, `exact_call`, `exact_bind`, `exact_handle`;
* `exact_only`: calls that keep a condition, and never leave `A`;
* `exact_forEach`: a loop over a generator that keeps to a protocol, with `obeys_lift_bind` for the calls
in the generator.
-/

namespace Calls

namespace Prog

variable {I : Iface} {Y ε α β σ τ W : Type}

/-- Every run of `p` from `w` with outcomes of `B` keeps `inv` and ends in `post`, which is told whether
`c` holds and all outcomes were of `A`. -/
def Exact (h : Handler I ε W) (A B : I.Op → Outcome ε → Prop) (inv : W → Prop)
    (post : Prop → Except ε α → W → Prop) : Prop → Prog I ε α → W → Prop
  | c, .done r, w => inv w ∧ post c r w
  | c, .call o k, w =>
    inv w ∧ ∀ out : Outcome ε, B o out → inv (out.world h o w) ∧
      ∀ r, out.reply h o w = some r → (k r).Exact h A B inv post (c ∧ A o out) (out.world h o w)

variable {h : Handler I ε W} {A B : I.Op → Outcome ε → Prop} {inv : W → Prop}
  {post post' : Prop → Except ε α → W → Prop} {c : Prop}

theorem exact_done {r : Except ε α} {w : W} (hi : inv w) (hp : post c r w) :
    (.done r : Prog I ε α).Exact h A B inv post c w :=
  ⟨hi, hp⟩

theorem Exact.mono {p : Prog I ε α} {w : W} (hp : p.Exact h A B inv post c w)
    (hpost : ∀ c r w, inv w → post c r w → post' c r w) : p.Exact h A B inv post' c w := by
  induction p generalizing c w with
  | done r => exact ⟨hp.1, hpost c r w hp.1 hp.2⟩
  | call o k ih =>
    refine ⟨hp.1, fun out hB => ⟨(hp.2 out hB).1, fun r hr => ?_⟩⟩
    exact ih r ((hp.2 out hB).2 r hr)

theorem exact_bind {p : Prog I ε α} {f : α → Prog I ε β} {w : W} {post : Prop → Except ε β → W → Prop}
    (hp : p.Exact h A B inv (fun c r v => (cont f r).Exact h A B inv post c v) c w) :
    (p >>= f).Exact h A B inv post c w := by
  induction p generalizing c w with
  | done r => exact done_bind r f ▸ hp.2
  | call o k ih =>
    refine ⟨hp.1, fun out hB => ⟨(hp.2 out hB).1, fun r hr => ?_⟩⟩
    exact ih r ((hp.2 out hB).2 r hr)

theorem exact_handle {p : Prog I ε α} {k : ε → Prog I ε α} {w : W}
    (hp : p.Exact h A B inv (fun c r v => ((.done r : Prog I ε α).handle k).Exact h A B inv post c v) c w) :
    (p.handle k).Exact h A B inv post c w := by
  induction p generalizing c w with
  | done r => exact hp.2
  | call o k' ih =>
    refine ⟨hp.1, fun out hB => ⟨(hp.2 out hB).1, fun r hr => ?_⟩⟩
    exact ih r ((hp.2 out hB).2 r hr)

/-- A call: the program goes on from the handler's reply, and from each exception with the world that it
leaves. -/
theorem exact_call {o : I.Op} {k : Except ε (I.Resp o) → Prog I ε α} {w : W} (hi : inv w)
    (hi' : inv (h o w).2) (hok : B o .ok → (k (h o w).1).Exact h A B inv post (c ∧ A o .ok) (h o w).2)
    (herr : ∀ e applied, B o (.raised e applied) →
      (k (.error e)).Exact h A B inv post (c ∧ A o (.raised e applied)) (if applied then (h o w).2 else w)) :
    (.call o k : Prog I ε α).Exact h A B inv post c w := by
  refine ⟨hi, fun out hB => ?_⟩
  have hinv : inv (out.world h o w) := by
    rcases Outcome.world_eq h o w out with hw | hw <;> rwa [hw]
  refine ⟨hinv, fun r hr => ?_⟩
  cases out with
  | ok =>
    obtain rfl : (h o w).1 = r := Option.some.inj hr
    exact hok hB
  | raised e applied =>
    obtain rfl : .error e = r := Option.some.inj hr
    exact herr e applied hB
  | crashed applied => cases hr

/-- Calls that keep `J`, and whose outcomes are all of `A`. -/
theorem exact_only {N : I.Op → Prop} {J : W → Prop} (hJ : ∀ o w, N o → J w → J (h o w).2)
    (hinv : ∀ w, J w → inv w) (hA : ∀ o out, N o → B o out → A o out) {p : Prog I ε α} (hp : p.Only N)
    {w : W} (hw : J w) (hc : c) : p.Exact h A B inv (fun c _ v => c ∧ J v) c w := by
  induction p generalizing c w with
  | done r => exact ⟨hinv w hw, hc, hw⟩
  | call o k ih =>
    refine ⟨hinv w hw, fun out hB => ?_⟩
    have hJ' : J (out.world h o w) := by
      rcases Outcome.world_eq h o w out with he | he
      · rwa [he]
      · rw [he]
        exact hJ o w hp.1 hw
    exact ⟨hinv _ hJ', fun r _ => ih r (only_call hp r) hJ' ⟨hc, hA o out hp.1 hB⟩⟩

/-- What a run with outcomes of `B` comes to, told whether its outcomes were of `A`. -/
theorem exact_run {p : Prog I ε α} {w : W} {outs : List (Outcome ε)} (hp : p.Exact h A B inv post c w)
    (hB : p.Legal h B outs w) :
    inv (p.run h outs w).2 ∧
      ∀ r, (p.run h outs w).1 = some r → post (c ∧ p.Legal h A outs w) r (p.run h outs w).2 := by
  induction p generalizing c w outs with
  | done r =>
    refine ⟨hp.1, ?_⟩
    intro r' hr
    obtain rfl : r = r' := Option.some.inj hr
    have hlegal : (c ∧ (.done r : Prog I ε α).Legal h A outs w) = c := by simp [Legal]
    rw [hlegal]
    exact hp.2
  | call o k ih =>
    obtain ⟨hout, hrest⟩ := hB
    obtain ⟨hi, hk⟩ := hp.2 _ hout
    cases hreply : (outs.headD .ok).reply h o w with
    | none =>
      simp only [run, hreply]
      refine ⟨hi, fun r hr => ?_⟩
      cases hr
    | some r =>
      simp only [run, hreply]
      have hlegal : (c ∧ (.call o k : Prog I ε α).Legal h A outs w) =
          ((c ∧ A o (outs.headD .ok)) ∧ (k r).Legal h A outs.tail ((outs.headD .ok).world h o w)) := by
        refine propext ?_
        constructor
        · intro hall
          obtain ⟨hc, ha, hlegal⟩ := hall
          exact ⟨⟨hc, ha⟩, hlegal r hreply⟩
        · intro hall
          obtain ⟨⟨hc, ha⟩, hlegal⟩ := hall
          refine ⟨hc, ha, fun r' hr' => ?_⟩
          obtain rfl : r = r' := Option.some.inj (hreply.symm.trans hr')
          exact hlegal
      rw [hlegal]
      exact ih r (hk r hreply) (hrest r hreply)

/-- Without crashes a run comes to an end. -/
theorem exists_result (hB : ∀ o applied, ¬ B o (.crashed applied)) {p : Prog I ε α} {w : W}
    {outs : List (Outcome ε)} (hl : p.Legal h B outs w) : ∃ r, (p.run h outs w).1 = some r := by
  induction p generalizing w outs with
  | done r => exact ⟨r, rfl⟩
  | call o k ih =>
    obtain ⟨hout, hrest⟩ := hl
    cases hreply : (outs.headD .ok).reply h o w with
    | none =>
      cases hcase : outs.headD .ok with
      | ok => simp only [hcase, Outcome.reply, reduceCtorEq] at hreply
      | raised e applied => simp only [hcase, Outcome.reply, reduceCtorEq] at hreply
      | crashed applied => exact absurd (hcase ▸ hout) (hB o applied)
    | some r =>
      simp only [run, hreply]
      exact ih r (hrest r hreply)

/-- An exception is no value. -/
theorem error_ne_ok {e : ε} {a : α} {p : Prop} (h : (.error e : Except ε α) = .ok a) : p := by cases h

/-! ### Loops -/

/-- A part of a generator that only calls, with calls that do not leave the phase, and the rest. -/
theorem obeys_lift_bind {P : Protocol (I.yielding Y) ε τ} {N : I.Op → Prop} {φ : τ}
    {gpost : τ → Except ε β → Prop}
    (hN : ∀ o, N o → P.allows φ (.inl o) ∧ (∀ a, P.next φ (.inl o) a = φ) ∧
    ∀ e, P.failed φ (.inl o) e = φ) {p : Prog I ε α} {f : α → Prog (I.yielding Y) ε β} (hp : p.Only N)
    (hf : ∀ a, (f a).Obeys P gpost φ) (herr : ∀ e, gpost φ (.error e)) : (p.lift >>= f).Obeys P gpost φ := by
  induction p with
  | done r =>
    cases r with
    | ok a => exact hf a
    | error e => exact herr e
  | call o k ih =>
    obtain ⟨ha, hnext, hfail⟩ := hN o hp.1
    refine ⟨ha, fun a _ => ?_, fun e => ?_⟩
    · rw [hnext a]
      exact ih _ (only_call hp _)
    · rw [hfail e]
      exact ih _ (only_call hp _)

/-- A loop over a generator that obeys a protocol: `J` relates its phase, the state of the loop and the
world.  The generator's calls keep it, and so does the body, unless it leaves the loop. -/
theorem exact_forEach {P : Protocol (I.yielding Y) ε τ} {gpost : τ → Except ε Unit → Prop}
    {body : Y → σ → Prog I ε (ForInStep σ)} {J : Prop → τ → σ → W → Prop}
    {post : Prop → Except ε (ForInStep σ) → W → Prop} (hinv : ∀ c φ s w, J c φ s w → inv w)
    (hcall : ∀ c φ o s w, P.allows φ (.inl o) → J c φ s w → ∀ out, B o out → inv (out.world h o w) ∧
      ∀ r, out.reply h o w = some r →
        (∀ a, r = .ok a → P.replies φ (.inl o) a) ∧
        J (c ∧ A o out) (P.after φ (.inl o) r) s (out.world h o w))
    (hbody : ∀ c φ y s w, P.allows φ (.inr y) → J c φ s w → (body y s).Exact h A B inv (fun c r v =>
      (∀ s', r = .ok (.yield s') → P.replies φ (.inr y) () ∧ J c (P.next φ (.inr y) ()) s' v) ∧
      (∀ s', r = .ok (.done s') → post c r v) ∧ ∀ e, r = .error e → post c (.error e) v) c w)
    (hend : ∀ c φ s w, gpost φ (.ok ()) → J c φ s w → post c (.ok (.yield s)) w)
    (herr : ∀ c φ e s w, gpost φ (.error e) → J c φ s w → post c (.error e) w)
    {g : Prog (I.yielding Y) ε Unit} {φ : τ} {s : σ} {w : W} (hg : g.Obeys P gpost φ) (hw : J c φ s w) :
    (forEach body g s).Exact h A B inv post c w := by
  induction g generalizing c φ s w with
  | done r =>
    cases r with
    | ok u => exact ⟨hinv c φ s w hw, hend c φ s w hg hw⟩
    | error e => exact ⟨hinv c φ s w hw, herr c φ e s w hg hw⟩
  | call o k ih =>
    obtain ⟨ha, hok, hfail⟩ := hg
    cases o with
    | inl o =>
      refine ⟨hinv c φ s w hw, fun out hB => ?_⟩
      obtain ⟨hi, hreply⟩ := hcall c φ o s w ha hw out hB
      refine ⟨hi, fun r hr => ?_⟩
      obtain ⟨hreplies, hJ⟩ := hreply r hr
      cases r with
      | ok a => exact ih _ (hok a (hreplies a rfl)) hJ
      | error e => exact ih _ (hfail e) hJ
    | inr y =>
      refine exact_bind ((hbody c φ y s w ha hw).mono fun c r v hi hr => ?_)
      obtain ⟨hyield, hdone, herror⟩ := hr
      cases r with
      | error e => exact ⟨hi, herror e rfl⟩
      | ok x =>
        cases x with
        | done s' => exact ⟨hi, hdone s' rfl⟩
        | yield s' =>
          obtain ⟨hreplies, hJ⟩ := hyield s' rfl
          exact ih _ (hok () hreplies) hJ

end Prog

end Calls
