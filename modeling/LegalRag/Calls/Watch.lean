import LegalRag.Calls.Service

/-!
# One process, watched

What one process of a service knows of the world, in each state of its program, is kept if its start makes
it true, its own calls keep it, and the steps of the others leave it alone (`watch_run`); an invariant of
the whole service may be used for each.  What has come about in a run has been brought about by one of its
steps (`run_turns`).
-/

namespace Calls

namespace Service

variable {I : Iface} {ε W ρ η α : Type} {S : Service I ε W ρ η α}

/-- What process `pid` knows, by its request, what is left of its program, and the world. -/
def State.Watched (G : ρ → Prog I ε α → W → Prop) (pid : Nat) (s : State I ε W ρ α) : Prop :=
  ∀ p, s.procs pid = some p → G p.req p.prog s.world

/-- How a process has come to what is left of its program: by its start, or by a call. -/
theorem proc_turns {pid : Nat} {s s' : State I ε W ρ α} {l : Label ε ρ η} {p : Proc I ε ρ α}
    (h : S.step s l = some s') (hp : s'.procs pid = some p) (hne : s.procs pid ≠ some p) :
    (l = .start pid p.req ∧ p.prog = S.program p.req) ∨
    ∃ out o k rep, l = .call pid out ∧ s.procs pid = some ⟨p.req, .call o k⟩ ∧
      out.reply (S.handle pid p.req) o s.world = some rep ∧ p.prog = k rep := by
  by_cases hq : l.pid = some pid
  · rcases step_cases h with ⟨q, r, rfl, -, rfl⟩ | ⟨q, out, r, o, k, rfl, hproc, rfl⟩ | ⟨e, w, rfl, -, rfl⟩
    · obtain rfl : q = pid := Option.some.inj hq
      obtain rfl : ⟨r, S.program r⟩ = p := by simpa using hp
      exact Or.inl ⟨rfl, rfl⟩
    · obtain rfl : q = pid := Option.some.inj hq
      cases hrep : out.reply (S.handle q r) o s.world with
      | none => simp [resume, hrep] at hp
      | some rep =>
        obtain rfl : ⟨r, k rep⟩ = p := by simpa [resume, hrep] using hp
        exact Or.inr ⟨out, o, k, rep, rfl, hproc, hrep, rfl⟩
    · cases hq
  · exact absurd ((step_procs hq h).symm.trans hp) hne

/-- A request that has been answered stays so. -/
theorem done_step {pid : Nat} {s s' : State I ε W ρ α} {l : Label ε ρ η} {r : ρ} {x : Except ε α}
    (hp : s.procs pid = some ⟨r, .done x⟩) (h : S.step s l = some s') : s'.procs pid = some ⟨r, .done x⟩ := by
  by_cases hq : l.pid = some pid
  · rcases step_cases h with ⟨q, r', rfl, hnone, -⟩ | ⟨q, out, r', o, k, rfl, hproc, -⟩ | ⟨e, w, rfl, -, -⟩
    · obtain rfl : q = pid := Option.some.inj hq
      rw [hp] at hnone
      cases hnone
    · obtain rfl : q = pid := Option.some.inj hq
      rw [hp] at hproc
      cases hproc
    · cases hq
  · exact (step_procs hq h).trans hp

private theorem watch_step {G : ρ → Prog I ε α → W → Prop} {pid : Nat} {s s' : State I ε W ρ α}
    {l : Label ε ρ η} (hstart : ∀ r, l = .start pid r → G r (S.program r) (S.enter pid s.world))
    (hcall : ∀ r o k out rep, l = .call pid out → s.procs pid = some ⟨r, .call o k⟩ →
      G r (.call o k) s.world →
      out.reply (S.handle pid r) o s.world = some rep →
      G r (k rep) (out.world (S.handle pid r) o s.world))
    (hother : ∀ p, l.pid ≠ some pid → s.procs pid = some p → G p.req p.prog s.world →
      G p.req p.prog s'.world) (hs : s.Watched G pid) (h : S.step s l = some s') : s'.Watched G pid := by
  intro p hp
  by_cases hq : l.pid = some pid
  · rcases step_cases h with ⟨q, r, rfl, -, rfl⟩ | ⟨q, out, r, o, k, rfl, hproc, rfl⟩ | ⟨e, w, rfl, -, rfl⟩
    · obtain rfl : q = pid := Option.some.inj hq
      obtain rfl : ⟨r, S.program r⟩ = p := by simpa using hp
      exact hstart r rfl
    · obtain rfl : q = pid := Option.some.inj hq
      cases hrep : out.reply (S.handle q r) o s.world with
      | none => simp [resume, hrep] at hp
      | some rep =>
        obtain rfl : ⟨r, k rep⟩ = p := by simpa [resume, hrep] using hp
        exact hcall r o k out rep rfl hproc (hs _ hproc) hrep
    · cases hq
  · have hproc := (step_procs hq h).symm.trans hp
    exact hother p hq hproc (hs p hproc)

/-- The rule for runs; `Inv` holds before every step. -/
theorem watch_run {Inv : State I ε W ρ α → Prop} {C : State I ε W ρ α → Label ε ρ η → Prop}
    {G : ρ → Prog I ε α → W → Prop} {pid : Nat}
    (hinv : ∀ s l s', Inv s → C s l → S.step s l = some s' → Inv s')
    (hstart : ∀ s r, Inv s → G r (S.program r) (S.enter pid s.world))
    (hcall : ∀ s r o k out rep, Inv s → C s (.call pid out) → s.procs pid = some ⟨r, .call o k⟩ →
      G r (.call o k) s.world →
      out.reply (S.handle pid r) o s.world = some rep →
      G r (k rep) (out.world (S.handle pid r) o s.world))
    (hother : ∀ s l s' p, Inv s → C s l → S.step s l = some s' → l.pid ≠ some pid →
      s.procs pid = some p → G p.req p.prog s.world → G p.req p.prog s'.world)
    {s s' : State I ε W ρ α} {ls : List (Label ε ρ η)} (hi : Inv s) (hs : s.Watched G pid)
    (hm : S.Meets C s ls) (hr : S.run s ls = some s') : Inv s' ∧ s'.Watched G pid := by
  suffices hstep : ∀ (s : State I ε W ρ α) l s', Inv s ∧ s.Watched G pid → C s l → S.step s l = some s' →
      Inv s' ∧ s'.Watched G pid from run_induct hstep ⟨hi, hs⟩ hm hr
  intro s l s' hs hc h
  refine ⟨hinv s l s' hs.1 hc h, watch_step ?_ ?_ ?_ hs.2 h⟩
  · exact fun r _ => hstart s r hs.1
  · rintro r o k out rep rfl hp hg hrep
    exact hcall s r o k out rep hs.1 hc hp hg hrep
  · exact fun p hne hp hg => hother s l s' p hs.1 hc h hne hp hg

/-- What holds at the end of a run and not at its beginning has come about by one of its steps. -/
theorem run_turns {P : State I ε W ρ α → Prop} {s s' : State I ε W ρ α} {ls : List (Label ε ρ η)}
    (hr : S.run s ls = some s') (hs : ¬ P s) (hs' : P s') :
    ∃ ls₁ l ls₂ u v, ls = ls₁ ++ l :: ls₂ ∧ S.run s ls₁ = some u ∧ ¬ P u ∧ S.step u l = some v ∧ P v ∧
      S.run v ls₂ = some s' := by
  induction ls generalizing s with
  | nil =>
    obtain rfl := Option.some.inj hr
    exact absurd hs' hs
  | cons l ls ih =>
    obtain ⟨t, ht, hr⟩ := run_cons hr
    by_cases hP : P t
    · exact ⟨[], l, ls, s, t, rfl, rfl, hs, ht, hP, hr⟩
    · obtain ⟨ls₁, l', ls₂, u, v, rfl, hu, hrest⟩ := ih hr hP
      refine ⟨l :: ls₁, l', ls₂, u, v, rfl, ?_, hrest⟩
      show (S.step s l).bind _ = _
      rw [ht]
      exact hu

/-- A process that has not begun knows nothing. -/
theorem watched_of_none {G : ρ → Prog I ε α → W → Prop} {pid : Nat} {s : State I ε W ρ α}
    (h : s.procs pid = none) : s.Watched G pid := by
  intro p hp
  rw [h] at hp
  cases hp

end Service

end Calls
