import LegalRag.Calls.Effects
import LegalRag.Calls.Service

/-!
# Protocols of programs

A protocol says, phase by phase, which calls a program may make and with which replies it reckons.
`Prog.Obeys` is proved of a program alone, by rules that follow its shape.  In a service every process is
in a phase of its protocol, and the phase says what the process knows of the world (`State.Obeys`);
`obeys_step` reduces this to three things: what a process knows when it starts, what its own calls tell
it, and that the steps of the others leave it true.
-/

namespace Calls

variable {I : Iface} {ε α β σ W ρ η : Type}

/-- The calls allowed in each phase, the replies that can come, and the phase after a reply or an
exception. -/
structure Protocol (I : Iface) (ε σ : Type) where
  allows : σ → I.Op → Prop
  replies : σ → (o : I.Op) → I.Resp o → Prop
  next : σ → (o : I.Op) → I.Resp o → σ
  failed : σ → I.Op → ε → σ

namespace Protocol

/-- The protocol that allows everything, with its one phase. -/
def free (φ : σ) : Protocol I ε σ := ⟨fun _ _ => True, fun _ _ _ => True, fun _ _ _ => φ, fun _ _ _ => φ⟩

/-- The protocol that allows some calls, at any time. -/
def only (N : I.Op → Prop) : Protocol I ε σ :=
  ⟨fun _ => N, fun _ _ _ => True, fun φ _ _ => φ, fun φ _ _ => φ⟩

/-- Two protocols at once. -/
def both {τ : Type} (P : Protocol I ε σ) (Q : Protocol I ε τ) : Protocol I ε (σ × τ) where
  allows φ o := P.allows φ.1 o ∧ Q.allows φ.2 o
  replies φ o a := P.replies φ.1 o a ∧ Q.replies φ.2 o a
  next φ o a := (P.next φ.1 o a, Q.next φ.2 o a)
  failed φ o e := (P.failed φ.1 o e, Q.failed φ.2 o e)

/-- The phase after what the program sees of a call. -/
def after (P : Protocol I ε σ) (φ : σ) (o : I.Op) : Except ε (I.Resp o) → σ
  | .ok a => P.next φ o a
  | .error e => P.failed φ o e

/-- A call whose failures all lead to phases that fit, whether or not it took effect. -/
theorem after_fits_of {P : Protocol I ε σ} {F : σ → W → Prop} {h : Handler I ε W} {φ : σ}
    {o : I.Op} {w : W} {out : Outcome ε} {rep : Except ε (I.Resp o)}
    (hok : out = .ok → ∀ a, (h o w).1 = .ok a → P.replies φ o a ∧ F (P.next φ o a) (h o w).2)
    (herr : ∀ e v, v = w ∨ v = (h o w).2 → F (P.failed φ o e) v) (hrep : out.reply h o w = some rep) :
    (∀ a, rep = .ok a → P.replies φ o a) ∧ F (P.after φ o rep) (out.world h o w) := by
  have hw := Outcome.world_eq h o w out
  cases out with
  | ok =>
    simp only [Outcome.reply, Option.some.injEq] at hrep
    subst hrep
    cases hr : (h o w).1 with
    | ok a =>
      obtain ⟨ha, hf⟩ := hok rfl a hr
      refine ⟨?_, hf⟩
      intro b hb
      cases hb
      exact ha
    | error e =>
      refine ⟨?_, herr e _ (Or.inr rfl)⟩
      intro b hb
      cases hb
  | raised e applied =>
    simp only [Outcome.reply, Option.some.injEq] at hrep
    subst hrep
    refine ⟨?_, herr e _ hw⟩
    intro b hb
    cases hb
  | crashed applied => simp [Outcome.reply] at hrep

/-- The same, where the outcome does not matter. -/
theorem after_fits {P : Protocol I ε σ} {F : σ → W → Prop} {h : Handler I ε W} {φ : σ} {o : I.Op} {w : W}
    {out : Outcome ε} {rep : Except ε (I.Resp o)}
    (hok : ∀ a, (h o w).1 = .ok a → P.replies φ o a ∧ F (P.next φ o a) (h o w).2)
    (herr : ∀ e v, v = w ∨ v = (h o w).2 → F (P.failed φ o e) v) (hrep : out.reply h o w = some rep) :
    (∀ a, rep = .ok a → P.replies φ o a) ∧ F (P.after φ o rep) (out.world h o w) :=
  after_fits_of (fun _ => hok) herr hrep

end Protocol

namespace Prog

variable {P : Protocol I ε σ} {post : σ → Except ε α → Prop}

/-- From the phase `φ` the program makes only allowed calls, and ends as `post` says. -/
def Obeys (P : Protocol I ε σ) (post : σ → Except ε α → Prop) : σ → Prog I ε α → Prop
  | φ, .done r => post φ r
  | φ, .call o k =>
    P.allows φ o ∧ (∀ a, P.replies φ o a → (k (.ok a)).Obeys P post (P.next φ o a)) ∧
      ∀ e, (k (.error e)).Obeys P post (P.failed φ o e)

theorem obeys_call {φ : σ} {o : I.Op} {k : Except ε (I.Resp o) → Prog I ε α} (ha : P.allows φ o)
    (hok : ∀ a, P.replies φ o a → (k (.ok a)).Obeys P post (P.next φ o a))
    (herr : ∀ e, (k (.error e)).Obeys P post (P.failed φ o e)) : (.call o k : Prog I ε α).Obeys P post φ :=
  ⟨ha, hok, herr⟩

theorem obeys_perform {φ : σ} {o : I.Op} {post : σ → Except ε (I.Resp o) → Prop} (ha : P.allows φ o)
    (hok : ∀ a, P.replies φ o a → post (P.next φ o a) (.ok a))
    (herr : ∀ e, post (P.failed φ o e) (.error e)) : (perform o : Prog I ε (I.Resp o)).Obeys P post φ :=
  ⟨ha, hok, herr⟩

theorem obeys_bind {φ : σ} {p : Prog I ε α} {f : α → Prog I ε β} {post : σ → Except ε β → Prop}
    (hp : p.Obeys P (fun ψ r => (cont f r).Obeys P post ψ) φ) : (p >>= f).Obeys P post φ := by
  induction p generalizing φ with
  | done r => exact done_bind r f ▸ hp
  | call o k ih => exact ⟨hp.1, fun a ha => ih _ (hp.2.1 a ha), fun e => ih _ (hp.2.2 e)⟩

/-- A call, of which an exception is not caught, and the rest of the program. -/
theorem obeys_perform_bind {φ : σ} {o : I.Op} {f : I.Resp o → Prog I ε β} {post : σ → Except ε β → Prop}
    (ha : P.allows φ o) (hok : ∀ a, P.replies φ o a → (f a).Obeys P post (P.next φ o a))
    (herr : ∀ e, post (P.failed φ o e) (.error e)) : (perform o >>= f).Obeys P post φ :=
  obeys_bind (obeys_perform ha hok herr)

theorem obeys_handle {φ : σ} {p : Prog I ε α} {c : ε → Prog I ε α}
    (hp : p.Obeys P (fun ψ r => ((.done r : Prog I ε α).handle c).Obeys P post ψ) φ) :
    (p.handle c).Obeys P post φ := by
  induction p generalizing φ with
  | done r => exact hp
  | call o k ih => exact ⟨hp.1, fun a ha => ih _ (hp.2.1 a ha), fun e => ih _ (hp.2.2 e)⟩

theorem Obeys.mono {φ : σ} {p : Prog I ε α} {post' : σ → Except ε α → Prop} (hp : p.Obeys P post φ)
    (h : ∀ ψ r, post ψ r → post' ψ r) : p.Obeys P post' φ := by
  induction p generalizing φ with
  | done r => exact h φ r hp
  | call o k ih => exact ⟨hp.1, fun a ha => ih _ (hp.2.1 a ha), fun e => ih _ (hp.2.2 e)⟩

/-- A program whose calls are all allowed in one phase and do not leave it. -/
theorem obeys_of_follows {φ : σ} {R : (o : I.Op) → I.Resp o → Prop} {N : I.Op → Prop} {post : α → Prop}
    (hN : ∀ o, N o → P.allows φ o ∧ (∀ a, P.replies φ o a → R o a ∧ P.next φ o a = φ) ∧
      ∀ e, P.failed φ o e = φ) {p : Prog I ε α} (hp : p.Follows R N post) :
    p.Obeys P (fun ψ r => ψ = φ ∧ ∀ a, r = .ok a → post a) φ := by
  induction p with
  | done r =>
    refine ⟨rfl, ?_⟩
    rintro a rfl
    exact hp
  | call o k ih =>
    obtain ⟨ha, hnext, hfail⟩ := hN o hp.1
    refine ⟨ha, ?_, ?_⟩
    · intro a hr
      obtain ⟨hR, hφ⟩ := hnext a hr
      rw [hφ]
      exact ih _ (hp.2.1 a hR)
    · intro e
      rw [hfail e]
      exact ih _ (hp.2.2 e)

/-- A program that obeys two protocols obeys them together. -/
theorem obeys_both {τ : Type} {Q : Protocol I ε τ} {post' : τ → Except ε α → Prop} {φ : σ} {ψ : τ}
    {p : Prog I ε α} (hp : p.Obeys P post φ) (hq : p.Obeys Q post' ψ) :
    p.Obeys (P.both Q) (fun χ r => post χ.1 r ∧ post' χ.2 r) (φ, ψ) := by
  induction p generalizing φ ψ with
  | done r => exact ⟨hp, hq⟩
  | call o k ih =>
    exact ⟨⟨hp.1, hq.1⟩, fun a ha => ih _ (hp.2.1 a ha.1) (hq.2.1 a ha.2),
      fun e => ih _ (hp.2.2 e) (hq.2.2 e)⟩

/-- A program that ends well ends in the phase `φ`, with a result of which `good` holds. -/
def ComesTo (φ : σ) (good : α → Prop) (ψ : σ) (r : Except ε α) : Prop :=
  ∀ a, r = .ok a → ψ = φ ∧ good a

theorem comesTo_error (φ ψ : σ) (good : α → Prop) (e : ε) : ComesTo φ good ψ (.error e : Except ε α) := by
  rintro a ⟨⟩

theorem comesTo_bind {φ χ ψ : σ} {p : Prog I ε α} {f : α → Prog I ε β} {m : α → Prop} {good : β → Prop}
    (hp : p.Obeys P (ComesTo χ m) φ) (hf : ∀ a, m a → (f a).Obeys P (ComesTo ψ good) χ) :
    (p >>= f).Obeys P (ComesTo ψ good) φ := by
  refine obeys_bind (hp.mono fun θ r hr => ?_)
  cases r with
  | error e => exact comesTo_error ψ θ good e
  | ok a =>
    obtain ⟨rfl, ha⟩ := hr a rfl
    exact hf a ha

/-- A call, and what comes after it. -/
theorem comesTo_step {φ χ ψ : σ} {o : I.Op} {f : I.Resp o → Prog I ε β} {m : I.Resp o → Prop}
    {good : β → Prop} (ha : P.allows φ o) (hnext : ∀ a, P.replies φ o a → P.next φ o a = χ ∧ m a)
    (hf : ∀ a, m a → (f a).Obeys P (ComesTo ψ good) χ) : (perform o >>= f).Obeys P (ComesTo ψ good) φ := by
  refine comesTo_bind (m := m) (obeys_perform ha (fun a hr b hb => ?_) fun e => ?_) hf
  · cases hb
    exact hnext a hr
  · exact comesTo_error _ _ _ e

/-- A program of which all calls are allowed in one phase and, where they succeed, do not leave it. -/
theorem comesTo_of_follows {φ : σ} {R : (o : I.Op) → I.Resp o → Prop} {N : I.Op → Prop} {good : α → Prop}
    (hN : ∀ o, N o → P.allows φ o ∧ (∀ a, P.replies φ o a → R o a ∧ P.next φ o a = φ) ∧
      ∀ e, P.failed φ o e = φ) {p : Prog I ε α} (hp : p.Follows R N good) : p.Obeys P (ComesTo φ good) φ :=
  (obeys_of_follows hN hp).mono fun _ _ hr a ha => ⟨hr.1, hr.2 a ha⟩

/-- The calls of a program, read off its protocol. -/
theorem follows_of_obeys {R : (o : I.Op) → I.Resp o → Prop} {N : I.Op → Prop}
    (hN : ∀ φ o, P.allows φ o → N o) (hR : ∀ φ o a, R o a → P.replies φ o a) {φ : σ} {p : Prog I ε α}
    (hp : p.Obeys P post φ) : p.Follows R N fun _ => True := by
  induction p generalizing φ with
  | done r => cases r <;> trivial
  | call o k ih =>
    exact ⟨hN φ o hp.1, fun a ha => ih _ (hp.2.1 a (hR φ o a ha)), fun e => ih _ (hp.2.2 e)⟩

theorem obeys_only {N : I.Op → Prop} {p : Prog I ε α} (hp : p.Only N) (φ : σ) :
    p.Obeys (Protocol.only N) (fun _ _ => True) φ := by
  induction p generalizing φ with
  | done r => trivial
  | call o k ih => exact ⟨hp.1, fun a _ => ih _ (only_call hp _) φ, fun e => ih _ (only_call hp _) φ⟩

/-- By calls of `N` that succeed, the program comes to a call of `T`. -/
def Awaits (N T : I.Op → Prop) : Prog I ε α → Prop
  | .done _ => False
  | .call o k => T o ∨ N o ∧ ∀ a, (k (.ok a)).Awaits N T

/-- A program is bound to make a call if it is in a phase from which no other way leads to an end. -/
theorem awaits_of_obeys {N T : I.Op → Prop} (owing : σ → Prop)
    (hstep : ∀ φ o, owing φ → P.allows φ o → T o ∨ N o ∧ ∀ a, P.replies φ o a ∧ owing (P.next φ o a))
    (hend : ∀ φ r, owing φ → ¬ post φ r) {φ : σ} {p : Prog I ε α} (hφ : owing φ) (hp : p.Obeys P post φ) :
    p.Awaits N T := by
  induction p generalizing φ with
  | done r => exact absurd hp (hend φ r hφ)
  | call o k ih =>
    rcases hstep φ o hφ hp.1 with hT | ⟨hN, hnext⟩
    · exact Or.inl hT
    · refine Or.inr ⟨hN, fun a => ?_⟩
      obtain ⟨hreply, howing⟩ := hnext a
      exact ih _ howing (hp.2.1 a hreply)

theorem obeys_free (φ : σ) (p : Prog I ε α) : p.Obeys (Protocol.free φ) (fun _ _ => True) φ := by
  induction p with
  | done r => trivial
  | call o k ih => exact ⟨trivial, fun a _ => ih _, fun e => ih _⟩

end Prog

namespace Service

/-- Every process obeys its protocol from some phase, and what the phase says of the world fits. -/
def State.Obeys (P : ρ → Protocol I ε σ) (post : ρ → σ → Except ε α → Prop)
    (fits : ρ → Nat → σ → W → Prop) (s : State I ε W ρ α) : Prop :=
  ∀ pid p, s.procs pid = some p → ∃ φ, p.prog.Obeys (P p.req) (post p.req) φ ∧ fits p.req pid φ s.world

theorem idle_obeys (P : ρ → Protocol I ε σ) (post : ρ → σ → Except ε α → Prop)
    (fits : ρ → Nat → σ → W → Prop) (w : W) : (idle w : State I ε W ρ α).Obeys P post fits := by
  intro pid p hp
  cases hp

theorem State.Obeys.imp {P : ρ → Protocol I ε σ} {post : ρ → σ → Except ε α → Prop}
    {fits fits' : ρ → Nat → σ → W → Prop} {s : State I ε W ρ α} (hs : s.Obeys P post fits)
    (h : ∀ r pid φ w, fits r pid φ w → fits' r pid φ w) : s.Obeys P post fits' := by
  intro pid p hp
  obtain ⟨φ, hobeys, hfits⟩ := hs pid p hp
  exact ⟨φ, hobeys, h p.req pid φ s.world hfits⟩

section Rule

variable {S : Service I ε W ρ η α} {P : ρ → Protocol I ε σ} {post : ρ → σ → Except ε α → Prop}
  {fits : ρ → Nat → σ → W → Prop} {C : State I ε W ρ α → Label ε ρ η → Prop}

/-- One step keeps every process to its protocol; what a process knows at its start may depend on the
request. -/
theorem obeys_step_of {s s' : State I ε W ρ α} {l : Label ε ρ η}
    (hstart : ∀ pid r, l = .start pid r → ∃ φ, (S.program r).Obeys (P r) (post r) φ ∧
      fits r pid φ (S.enter pid s.world))
    (hcall : ∀ pid r o k out φ rep, l = .call pid out → s.procs pid = some ⟨r, .call o k⟩ →
      (P r).allows φ o →
      fits r pid φ s.world → out.reply (S.handle pid r) o s.world = some rep →
      (∀ a, rep = .ok a → (P r).replies φ o a) ∧
        fits r pid ((P r).after φ o rep) (out.world (S.handle pid r) o s.world))
    (hothers : ∀ q p φ, l.pid ≠ some q → s.procs q = some p → p.prog.Obeys (P p.req) (post p.req) φ →
      fits p.req q φ s.world → fits p.req q φ s'.world)
    (hs : s.Obeys P post fits) (h : S.step s l = some s') : s'.Obeys P post fits := by
  intro q p hp
  by_cases hq : l.pid = some q
  · rcases step_cases h with ⟨pid, r, rfl, -, rfl⟩ | ⟨pid, out, r, o, k, rfl, hproc, rfl⟩ |
      ⟨e, w, rfl, -, rfl⟩
    · obtain rfl : pid = q := by simpa [Label.pid] using hq
      obtain rfl : ⟨r, S.program r⟩ = p := by simpa using hp
      exact hstart pid r rfl
    · obtain rfl : pid = q := by simpa [Label.pid] using hq
      obtain ⟨φ, ⟨ha, hok, herr⟩, hf⟩ := hs pid _ hproc
      cases hrep : out.reply (S.handle pid r) o s.world with
      | none => simp [resume, hrep] at hp
      | some rep =>
        obtain rfl : ⟨r, k rep⟩ = p := by simpa [resume, hrep] using hp
        obtain ⟨hreply, hfits⟩ := hcall pid r o k out φ rep rfl hproc ha hf hrep
        simp only [resume, State.set_world]
        cases rep with
        | ok a => exact ⟨_, hok a (hreply a rfl), hfits⟩
        | error e => exact ⟨_, herr e, hfits⟩
    · simp [Label.pid] at hq
  · -- the process `q` takes no part in the step
    have hproc : s.procs q = some p := (step_procs hq h).symm.trans hp
    obtain ⟨φ, hφ, hf⟩ := hs q p hproc
    exact ⟨φ, hφ, hothers q p φ hq hproc hφ hf⟩

/-- One step keeps every process to its protocol. -/
theorem obeys_step {s s' : State I ε W ρ α} {l : Label ε ρ η}
    (hstart : ∀ pid r w, ∃ φ, (S.program r).Obeys (P r) (post r) φ ∧ fits r pid φ (S.enter pid w))
    (hcall : ∀ pid r o k out φ rep, l = .call pid out → s.procs pid = some ⟨r, .call o k⟩ →
      (P r).allows φ o →
      fits r pid φ s.world → out.reply (S.handle pid r) o s.world = some rep →
      (∀ a, rep = .ok a → (P r).replies φ o a) ∧
        fits r pid ((P r).after φ o rep) (out.world (S.handle pid r) o s.world))
    (hothers : ∀ q p φ, l.pid ≠ some q → s.procs q = some p → p.prog.Obeys (P p.req) (post p.req) φ →
      fits p.req q φ s.world → fits p.req q φ s'.world)
    (hs : s.Obeys P post fits) (h : S.step s l = some s') : s'.Obeys P post fits :=
  obeys_step_of (fun pid r _ => hstart pid r s.world) hcall hothers hs h

end Rule

end Service

end Calls
