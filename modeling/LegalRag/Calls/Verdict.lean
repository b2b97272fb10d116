import LegalRag.Calls.Crash

/-!
# Runs, judged call by call

A condition on a call may speak of the world before it.  `Prog.Passes h C outs p w`: every call of the run
meets `C`. `Prog.Judged h B C post` is a Hoare logic for the runs with outcomes of `B` whose postcondition
is told whether they pass (`judged_run`); its rules follow the shape of a program.
-/

namespace Calls

namespace Prog

variable {I : Iface} {ε α β W : Type}

/-- Every call of the run of `p` with the outcomes `outs` meets `C`. -/
def Passes (h : Handler I ε W) (C : I.Op → W → Outcome ε → Prop) : List (Outcome ε) → Prog I ε α → W → Prop
  | _, .done _, _ => True
  | outs, .call o k, w =>
    C o w (outs.headD .ok) ∧
      ∀ r, (outs.headD .ok).reply h o w = some r → (k r).Passes h C outs.tail ((outs.headD .ok).world h o w)

/-- Every run of `p` from `w` with outcomes of `B` ends in `post`, which is told whether `c` holds and all
calls met `C`. -/
def Judged (h : Handler I ε W) (B : I.Op → Outcome ε → Prop) (C : I.Op → W → Outcome ε → Prop)
    (post : Prop → Except ε α → W → Prop) : Prop → Prog I ε α → W → Prop
  | c, .done r, w => post c r w
  | c, .call o k, w => ∀ out : Outcome ε, B o out → ∀ r, out.reply h o w = some r →
    (k r).Judged h B C post (c ∧ C o w out) (out.world h o w)

variable {h : Handler I ε W} {B : I.Op → Outcome ε → Prop} {C : I.Op → W → Outcome ε → Prop}
  {post post' : Prop → Except ε α → W → Prop} {c : Prop}

theorem Judged.mono {p : Prog I ε α} {w : W} (hp : p.Judged h B C post c w)
    (hpost : ∀ c r w, post c r w → post' c r w) : p.Judged h B C post' c w := by
  induction p generalizing c w with
  | done r => exact hpost c r w hp
  | call o k ih => exact fun out hB r hr => ih r (hp out hB r hr)

theorem judged_bind {p : Prog I ε α} {f : α → Prog I ε β} {w : W} {post : Prop → Except ε β → W → Prop}
    (hp : p.Judged h B C (fun c r v => (cont f r).Judged h B C post c v) c w) :
    (p >>= f).Judged h B C post c w := by
  induction p generalizing c w with
  | done r => exact done_bind r f ▸ hp
  | call o k ih => exact fun out hB r hr => ih r (hp out hB r hr)

theorem judged_handle {p : Prog I ε α} {k : ε → Prog I ε α} {w : W}
    (hp : p.Judged h B C (fun c r v => ((.done r : Prog I ε α).handle k).Judged h B C post c v) c w) :
    (p.handle k).Judged h B C post c w := by
  induction p generalizing c w with
  | done r => exact hp
  | call o k' ih => exact fun out hB r hr => ih r (hp out hB r hr)

/-- What a run with outcomes of `B` comes to, told whether it passes. -/
theorem judged_run {p : Prog I ε α} {w : W} {outs : List (Outcome ε)} (hp : p.Judged h B C post c w)
    (hB : p.Legal h B outs w) {r : Except ε α} (hr : (p.run h outs w).1 = some r) :
    post (c ∧ p.Passes h C outs w) r (p.run h outs w).2 := by
  induction p generalizing c w outs with
  | done r' =>
    obtain rfl : r' = r := Option.some.inj hr
    have hpasses : (c ∧ (.done r' : Prog I ε α).Passes h C outs w) = c := by simp [Passes]
    rw [hpasses]
    exact hp
  | call o k ih =>
    obtain ⟨hout, hrest⟩ := hB
    cases hreply : (outs.headD .ok).reply h o w with
    | none =>
      simp only [run, hreply] at hr
      cases hr
    | some rep =>
      simp only [run, hreply] at hr ⊢
      have hpasses : (c ∧ (.call o k : Prog I ε α).Passes h C outs w) =
          ((c ∧ C o w (outs.headD .ok)) ∧ (k rep).Passes h C outs.tail ((outs.headD .ok).world h o w)) := by
        refine propext ⟨?_, ?_⟩
        · rintro ⟨hc, ha, hall⟩
          exact ⟨⟨hc, ha⟩, hall rep hreply⟩
        · rintro ⟨⟨hc, ha⟩, hall⟩
          refine ⟨hc, ha, fun rep' hrep' => ?_⟩
          obtain rfl : rep = rep' := Option.some.inj (hreply.symm.trans hrep')
          exact hall
      rw [hpasses]
      exact ih rep (hp _ hout rep hreply) (hrest rep hreply) hr

/-- Whether the outcomes of a run are allowed can be computed. -/
instance decidableLegal (h : Handler I ε W) (A : I.Op → Outcome ε → Prop) [∀ o out, Decidable (A o out)] :
    ∀ outs (p : Prog I ε α) w, Decidable (p.Legal h A outs w)
  | _, .done _, _ => isTrue trivial
  | outs, .call o k, w =>
    match hr : (outs.headD .ok).reply h o w with
    | none =>
      decidable_of_iff (A o (outs.headD .ok)) ⟨fun ha => ⟨ha, fun r h => by rw [hr] at h; cases h⟩, And.left⟩
    | some r =>
      have := decidableLegal h A outs.tail (k r) ((outs.headD .ok).world h o w)
      decidable_of_iff (A o (outs.headD .ok) ∧ (k r).Legal h A outs.tail ((outs.headD .ok).world h o w))
        (and_congr_right' (by simp only [hr, Option.some.injEq, forall_eq']))

end Prog

end Calls
