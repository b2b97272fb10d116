import LegalRag.Calls.Program

/-!
# Programs under faults

`Prog.Always` is a Hoare logic for runs with faults.  From a world `w`, whatever the outcomes of the calls
(among the allowed ones), the world after each call satisfies `inv`, and the result and the last world
satisfy `post`.  As a crash can come after any call, `inv` is what a crashed run leaves behind.

* the rules follow the shape of a program: `always_done`, `always_call`, `always_bind`, `always_handle`;
* `always_run`: a program with `Always` meets it on every run (`Prog.run`), for every list of outcomes.
-/

namespace Calls

variable {I : Iface} {ε α β W : Type}

namespace Prog

/-- The outcomes `outs` of the calls of `p` are among the allowed ones. -/
def Legal (h : Handler I ε W) (A : I.Op → Outcome ε → Prop) : List (Outcome ε) → Prog I ε α → W → Prop
  | _, .done _, _ => True
  | outs, .call o k, w =>
    A o (outs.headD .ok) ∧
      ∀ r, (outs.headD .ok).reply h o w = some r → (k r).Legal h A outs.tail ((outs.headD .ok).world h o w)

/-- Every run of `p` from `w` keeps `inv` after each call, and one that comes to an end does so in `post`.
-/
def Always (h : Handler I ε W) (A : I.Op → Outcome ε → Prop) (inv : W → Prop) (post : Except ε α → W → Prop) :
    Prog I ε α → W → Prop
  | .done r, w => inv w ∧ post r w
  | .call o k, w =>
    inv w ∧ ∀ out : Outcome ε, A o out → inv (out.world h o w) ∧
      ∀ r, out.reply h o w = some r → (k r).Always h A inv post (out.world h o w)

variable {h : Handler I ε W} {A : I.Op → Outcome ε → Prop} {inv : W → Prop}
    {post post' : Except ε α → W → Prop}

theorem always_done {r : Except ε α} {w : W} (hi : inv w) (hp : post r w) :
    (.done r : Prog I ε α).Always h A inv post w := ⟨hi, hp⟩

theorem Always.mono {p : Prog I ε α} {w : W} (hp : p.Always h A inv post w)
    (hpost : ∀ r w, inv w → post r w → post' r w) : p.Always h A inv post' w := by
  induction p generalizing w with
  | done r => exact ⟨hp.1, hpost _ _ hp.1 hp.2⟩
  | call o k ih =>
    refine ⟨hp.1, fun out ha => ⟨(hp.2 out ha).1, fun r hr => ?_⟩⟩
    exact ih r ((hp.2 out ha).2 r hr)

theorem Always.weaken {inv' : W → Prop} {p : Prog I ε α} {w : W} (hp : p.Always h A inv post w)
    (hinv : ∀ w, inv w → inv' w) : p.Always h A inv' post w := by
  induction p generalizing w with
  | done r => exact ⟨hinv _ hp.1, hp.2⟩
  | call o k ih =>
    refine ⟨hinv _ hp.1, fun out ha => ⟨hinv _ (hp.2 out ha).1, fun r hr => ?_⟩⟩
    exact ih r ((hp.2 out ha).2 r hr)

/-- A call: the program must go on from the handler's reply, and from each exception with the world that
it leaves. -/
theorem always_call_of {o : I.Op} {k : Except ε (I.Resp o) → Prog I ε α} {w : W} (hi : inv w)
    (hi' : inv (h o w).2) (hok : A o .ok → (k (h o w).1).Always h A inv post (h o w).2)
    (herr : ∀ e applied, A o (.raised e applied) →
      (k (.error e)).Always h A inv post (if applied then (h o w).2 else w)) :
    (.call o k : Prog I ε α).Always h A inv post w := by
  refine ⟨hi, fun out ha => ?_⟩
  have hinv : inv (out.world h o w) := by
    rcases Outcome.world_eq h o w out with hw | hw
    · rwa [hw]
    · rwa [hw]
  refine ⟨hinv, fun r hr => ?_⟩
  cases out with
  | ok =>
    simp only [Outcome.reply, Option.some.injEq] at hr
    subst hr
    exact hok ha
  | raised e applied =>
    simp only [Outcome.reply, Option.some.injEq] at hr
    subst hr
    exact herr e applied ha
  | crashed applied => simp [Outcome.reply] at hr

/-- A call after any failure of which the program goes on in the same way, whether or not it took effect.
-/
theorem always_call {o : I.Op} {k : Except ε (I.Resp o) → Prog I ε α} {w : W} (hi : inv w)
    (hi' : inv (h o w).2) (hok : (k (h o w).1).Always h A inv post (h o w).2)
    (herr : ∀ e v, v = w ∨ v = (h o w).2 → (k (.error e)).Always h A inv post v) :
    (.call o k : Prog I ε α).Always h A inv post w := by
  refine always_call_of hi hi' (fun _ => hok) ?_
  intro e applied _
  cases applied with
  | true => exact herr e _ (Or.inr rfl)
  | false => exact herr e _ (Or.inl rfl)

theorem always_bind {p : Prog I ε α} {f : α → Prog I ε β} {w : W} {post : Except ε β → W → Prop}
    (hp : p.Always h A inv (fun r v => (cont f r).Always h A inv post v) w) :
    (p >>= f).Always h A inv post w := by
  induction p generalizing w with
  | done r => exact done_bind r f ▸ hp.2
  | call o k ih =>
    refine ⟨hp.1, fun out ha => ⟨(hp.2 out ha).1, fun r hr => ?_⟩⟩
    exact ih r ((hp.2 out ha).2 r hr)

theorem always_handle {p : Prog I ε α} {c : ε → Prog I ε α} {w : W}
    (hp : p.Always h A inv (fun r v => ((.done r : Prog I ε α).handle c).Always h A inv post v) w) :
    (p.handle c).Always h A inv post w := by
  induction p generalizing w with
  | done r => exact hp.2
  | call o k ih =>
    refine ⟨hp.1, fun out ha => ⟨(hp.2 out ha).1, fun r hr => ?_⟩⟩
    exact ih r ((hp.2 out ha).2 r hr)

/-- The logic is sound: on every run with allowed outcomes the invariant holds of the world left behind,
and the postcondition of the result if there is one. -/
theorem always_run {p : Prog I ε α} {w : W} (outs : List (Outcome ε)) (hl : p.Legal h A outs w)
    (hp : p.Always h A inv post w) :
    inv (p.run h outs w).2 ∧ ∀ r, (p.run h outs w).1 = some r → post r (p.run h outs w).2 := by
  induction p generalizing w outs with
  | done r =>
    refine ⟨hp.1, fun r' hr => ?_⟩
    simp only [run, Option.some.injEq] at hr
    exact hr ▸ hp.2
  | call o k ih =>
    obtain ⟨ha, hl⟩ := hl
    obtain ⟨hi, hk⟩ := hp.2 _ ha
    cases hr : (outs.headD .ok).reply h o w with
    | some r =>
      simp only [run, hr]
      exact ih r outs.tail (hl r hr) (hk r hr)
    | none =>
      simp only [run, hr]
      exact ⟨hi, by simp⟩

/-- With every outcome allowed, every list of outcomes is legal. -/
theorem legal_of_all (hA : ∀ o out, A o out) (outs : List (Outcome ε)) (p : Prog I ε α) (w : W) :
    p.Legal h A outs w := by
  induction p generalizing w outs with
  | done r => trivial
  | call o k ih => exact ⟨hA _ _, fun r _ => ih r _ _⟩

theorem Legal.mono {A' : I.Op → Outcome ε → Prop} {outs : List (Outcome ε)} {p : Prog I ε α} {w : W}
    (hl : p.Legal h A outs w) (hA : ∀ o out, A o out → A' o out) : p.Legal h A' outs w := by
  induction p generalizing w outs with
  | done r => trivial
  | call o k ih => exact ⟨hA _ _ hl.1, fun r hr => ih r (hl.2 r hr)⟩

/-- A run in which no call fails is legal. -/
theorem legal_nil (hA : ∀ o, A o .ok) (p : Prog I ε α) (w : W) : p.Legal h A [] w := by
  induction p generalizing w with
  | done r => trivial
  | call o k ih => exact ⟨hA o, fun r _ => ih r _⟩

/-- What always holds holds of the run in which no call fails. -/
theorem exec_of_always {p : Prog I ε α} {w : W} (hA : ∀ o, A o .ok) (hp : p.Always h A inv post w) :
    inv (p.exec h w).2 ∧ post (p.exec h w).1 (p.exec h w).2 := by
  have hrun := always_run [] (legal_nil hA p w) hp
  rw [run_nil] at hrun
  exact ⟨hrun.1, hrun.2 _ rfl⟩

end Prog

end Calls
