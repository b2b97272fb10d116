import LegalRag.Calls.Effects
import LegalRag.Calls.Service

/-!
# What one party sees of a service

A run of a service `S`, looked at through `view`, is a run of a service `T`: some steps of `S` are steps of
`T`, the others leave it where it is (`run_viewed`).

The main case is that of a party of its own: `T` serves some of the requests of `S`, in a part of its
world, and the other requests leave that part alone (`Projects`).  Then the part, and what the requests of
the party return, are the same as if it were alone (`Projects.run`).
-/

namespace Calls

namespace Service

variable {I J : Iface} {ε δ W V ρ τ η θ α β : Type}

/-- The steps of `T` that a run of `S` amounts to. -/
def viewed (S : Service I ε W ρ η α) (view : State I ε W ρ α → Label ε ρ η → Option (Label δ τ θ)) :
    State I ε W ρ α → List (Label ε ρ η) → List (Label δ τ θ)
  | _, [] => []
  | s, l :: ls =>
    match S.step s l with
    | none => []
    | some s' => (view s l).toList ++ S.viewed view s' ls

/-- What `T` makes of one step of `S`: it takes the step that `view` shows, which meets `D`, or stays. -/
def Matches (T : Service J δ V τ θ β) (D : State J δ V τ β → Label δ τ θ → Prop)
    (R : State I ε W ρ α → State J δ V τ β → Prop) (s' : State I ε W ρ α) (t : State J δ V τ β) :
    Option (Label δ τ θ) → Prop
  | none => R s' t
  | some m => D t m ∧ ∃ t', T.step t m = some t' ∧ R s' t'

variable {S : Service I ε W ρ η α} {T : Service J δ V τ θ β}

/-- A run of `S` whose steps meet `C` is a run of `T` whose steps meet `D`. -/
theorem run_viewed {view : State I ε W ρ α → Label ε ρ η → Option (Label δ τ θ)}
    {R : State I ε W ρ α → State J δ V τ β → Prop} {C : State I ε W ρ α → Label ε ρ η → Prop}
    {D : State J δ V τ β → Label δ τ θ → Prop}
    (hstep : ∀ s t l s', R s t → C s l → S.step s l = some s' → Matches T D R s' t (view s l))
    {s s' : State I ε W ρ α} {t : State J δ V τ β} {ls : List (Label ε ρ η)} (hR : R s t)
    (hm : S.Meets C s ls) (hr : S.run s ls = some s') :
    T.Meets D t (S.viewed view s ls) ∧ ∃ t', T.run t (S.viewed view s ls) = some t' ∧ R s' t' := by
  induction ls generalizing s t with
  | nil =>
    obtain rfl := Option.some.inj hr
    exact ⟨trivial, t, rfl, hR⟩
  | cons l ls ih =>
    obtain ⟨u, hu, hr⟩ := run_cons hr
    have hmatch := hstep s t l u hR hm.1 hu
    have hview : S.viewed view s (l :: ls) = (view s l).toList ++ S.viewed view u ls := by
      simp only [viewed, hu]
    rw [hview]
    cases hv : view s l with
    | none =>
      rw [hv] at hmatch
      exact ih hmatch (hm.2 u hu) hr
    | some m =>
      rw [hv] at hmatch
      obtain ⟨hD, t₁, ht₁, hR₁⟩ := hmatch
      obtain ⟨hmeets, t', ht', hR'⟩ := ih hR₁ (hm.2 u hu) hr
      refine ⟨⟨hD, fun t₂ ht₂ => ?_⟩, t', ?_, hR'⟩
      · obtain rfl := Option.some.inj (ht₁.symm.trans ht₂)
        exact hmeets
      · show (T.step t m).bind _ = _
        rw [ht₁]
        exact ht'

/-! ### The requests of one party -/

/-- The process of a request that `T` knows. -/
def Proc.as (as : ρ → Option τ) (p : Proc I ε ρ α) : Option (Proc I ε τ α) :=
  (as p.req).map fun r => ⟨r, p.prog⟩

/-- The steps of the processes whose requests `T` knows, and of what it knows of the environment. -/
def sees (as : ρ → Option τ) (asEnv : η → Option θ) (s : State I ε W ρ α) : Label ε ρ η → Option (Label ε τ θ)
  | .start pid r => (as r).map (.start pid)
  | .call pid out => ((s.procs pid).bind (Proc.as as)).map fun _ => .call pid out
  | .env e => (asEnv e).map .env

/-- The processes of `t` are the ones of `s` whose requests `T` knows, and its world is their part. -/
structure SeenAs (as : ρ → Option τ) (A : W → V → Prop) (s : State I ε W ρ α)
    (t : State I ε V τ α) : Prop where
  part : A s.world t.world
  procs : ∀ pid, t.procs pid = (s.procs pid).bind (Proc.as as)

/-- In the steps that meet `C`, the requests that `T` knows act on their part of the world as they do in
`T`, and the others, and the rest of the environment, leave it alone. -/
structure Projects (S : Service I ε W ρ η α) (T : Service I ε V τ θ α) (as : ρ → Option τ)
    (asEnv : η → Option θ) (Inv : State I ε W ρ α → Prop) (C : State I ε W ρ α → Label ε ρ η → Prop)
    (A : W → V → Prop) : Prop where
  program : ∀ r r', as r = some r' → T.program r' = S.program r
  enter : ∀ pid w v, A w v → A (S.enter pid w) v ∧ A (S.enter pid w) (T.enter pid v)
  own : ∀ s v pid r r' o k, Inv s → s.procs pid = some ⟨r, .call o k⟩ → as r = some r' → A s.world v →
    (T.handle pid r' o v).1 = (S.handle pid r o s.world).1 ∧
      A (S.handle pid r o s.world).2 (T.handle pid r' o v).2
  other : ∀ s v pid out r o k, Inv s → C s (.call pid out) → s.procs pid = some ⟨r, .call o k⟩ →
    as r = none → A s.world v → A (S.handle pid r o s.world).2 v
  envOwn : ∀ e e' w w' v, S.env e w = some w' → asEnv e = some e' → A w v →
    ∃ v', T.env e' v = some v' ∧ A w' v'
  envOther : ∀ e w w' v, S.env e w = some w' → asEnv e = none → A w v → A w' v

section Party

variable {S : Service I ε W ρ η α} {T : Service I ε V τ θ α} {as : ρ → Option τ} {asEnv : η → Option θ}
  {Inv : State I ε W ρ α → Prop} {C : State I ε W ρ α → Label ε ρ η → Prop} {A : W → V → Prop}

private theorem SeenAs.set {s : State I ε W ρ α} {t : State I ε V τ α} (h : SeenAs as A s t) {w : W} {v : V}
    (hA : A w v) (pid : Nat) (p : Option (Proc I ε ρ α)) :
    SeenAs as A (s.set w pid p) (t.set v pid (p.bind (Proc.as as))) := by
  refine ⟨hA, fun q => ?_⟩
  rw [State.set_procs, State.set_procs]
  by_cases hq : q = pid
  · rw [if_pos hq, if_pos hq]
  · rw [if_neg hq, if_neg hq]
    exact h.procs q

/-- Where `T` does not know the request, it stays as it is. -/
private theorem SeenAs.set_other {s : State I ε W ρ α} {t : State I ε V τ α} (h : SeenAs as A s t) {w : W}
    (hA : A w t.world) {pid : Nat} {p : Option (Proc I ε ρ α)} (hnone : t.procs pid = none)
    (hp : p.bind (Proc.as as) = none) : SeenAs as A (s.set w pid p) t := by
  refine ⟨hA, fun q => ?_⟩
  rw [State.set_procs]
  by_cases hq : q = pid
  · rw [if_pos hq, hp, hq, hnone]
  · rw [if_neg hq]
    exact h.procs q

private theorem Outcome.reply_congr {h : Handler I ε W} {g : Handler I ε V} {o : I.Op} {w : W} {v : V}
    (heq : (g o v).1 = (h o w).1) (out : Outcome ε) : out.reply g o v = out.reply h o w := by
  cases out with
  | ok => exact congrArg some heq
  | raised e applied => rfl
  | crashed applied => rfl

private theorem Outcome.world_rel {h : Handler I ε W} {g : Handler I ε V} {o : I.Op} {w : W} {v : V}
    (hA : A w v) (hA' : A (h o w).2 (g o v).2) (out : Outcome ε) : A (out.world h o w) (out.world g o v) := by
  cases out with
  | ok => exact hA'
  | raised e applied => cases applied <;> assumption
  | crashed applied => cases applied <;> assumption

/-- One step of `S` is the step of `T` that is seen of it, if any. -/
private theorem Projects.step (h : Projects S T as asEnv Inv C A) {s s' : State I ε W ρ α}
    {t : State I ε V τ α} {l : Label ε ρ η} (hi : Inv s) (hc : C s l) (hR : SeenAs as A s t)
    (hs : S.step s l = some s') : Matches T (fun _ _ => True) (SeenAs as A) s' t (sees as asEnv s l) := by
  rcases step_cases hs with ⟨pid, r, rfl, hp, rfl⟩ | ⟨pid, out, r, o, k, rfl, hp, rfl⟩ | ⟨e, w, rfl, hw, rfl⟩
  · have hnone : t.procs pid = none := by rw [hR.procs, hp]; rfl
    obtain ⟨hother, hown⟩ := h.enter pid _ _ hR.part
    cases hr : as r with
    | none =>
      have hsees : sees as asEnv s (.start pid r) = none := by simp [sees, hr]
      rw [hsees]
      exact hR.set_other hother hnone (by simp [Proc.as, hr])
    | some r' =>
      have hsees : sees as asEnv s (.start pid r) = some (.start pid r') := by simp [sees, hr]
      rw [hsees]
      refine ⟨trivial, t.set (T.enter pid t.world) pid (some ⟨r', T.program r'⟩), ?_, ?_⟩
      · simp only [Service.step, hnone]
      · have hset := hR.set hown pid (some ⟨r, S.program r⟩)
        rw [Option.bind_some, Proc.as, hr, Option.map_some] at hset
        rw [h.program r r' hr]
        exact hset
  · cases hr : as r with
    | none =>
      have hseen : (s.procs pid).bind (Proc.as as) = none := by rw [hp]; simp [Proc.as, hr]
      have hsees : sees as asEnv s (.call pid out) = none := by simp [sees, hseen]
      have hnone : t.procs pid = none := by rw [hR.procs, hseen]
      have hworld : A (out.world (S.handle pid r) o s.world) t.world := by
        rcases Outcome.world_eq (S.handle pid r) o s.world out with heq | heq
        · rw [heq]
          exact hR.part
        · rw [heq]
          exact h.other s _ pid out r o k hi hc hp hr hR.part
      rw [hsees]
      cases hrep : out.reply (S.handle pid r) o s.world with
      | none => exact hR.set_other hworld hnone rfl
      | some rep => exact hR.set_other hworld hnone (by simp [Proc.as, hr])
    | some r' =>
      have hseen : (s.procs pid).bind (Proc.as as) = some ⟨r', .call o k⟩ := by rw [hp]; simp [Proc.as, hr]
      have hsees : sees as asEnv s (.call pid out) = some (.call pid out) := by simp [sees, hseen]
      have hproc : t.procs pid = some ⟨r', .call o k⟩ := by rw [hR.procs, hseen]
      obtain ⟨hreply, hworld⟩ := h.own s _ pid r r' o k hi hp hr hR.part
      rw [hsees]
      refine ⟨trivial, resume t (out.world (T.handle pid r') o t.world) pid r' k
        (out.reply (T.handle pid r') o t.world), ?_, ?_⟩
      · simp only [Service.step, hproc]
      · rw [Outcome.reply_congr hreply out]
        have hrel := Outcome.world_rel hR.part hworld out
        cases hrep : out.reply (S.handle pid r) o s.world with
        | none => exact hR.set hrel pid none
        | some rep =>
          have hset := hR.set hrel pid (some ⟨r, k rep⟩)
          rwa [Option.bind_some, Proc.as, hr, Option.map_some] at hset
  · cases he : asEnv e with
    | none =>
      have hsees : sees as asEnv s (.env e) = (none : Option (Label ε τ θ)) := by simp [sees, he]
      rw [hsees]
      exact ⟨h.envOther e _ w _ hw he hR.part, hR.procs⟩
    | some e' =>
      obtain ⟨v, hv, hA⟩ := h.envOwn e e' _ w _ hw he hR.part
      have hsees : sees as asEnv s (.env e) = some (.env e' : Label ε τ θ) := by simp [sees, he]
      rw [hsees]
      exact ⟨trivial, ⟨v, t.procs⟩, by simp [Service.step, hv], hA, hR.procs⟩

/-- What a run of `S` is to the party that `T` serves; the steps that `T` takes meet `D`. -/
theorem Projects.run (h : Projects S T as asEnv Inv C A) {D : State I ε V τ α → Label ε τ θ → Prop}
    (hinv : ∀ s l s', Inv s → S.step s l = some s' → Inv s')
    (hD : ∀ s t l m, Inv s → C s l → SeenAs as A s t → sees as asEnv s l = some m → D t m)
    {s s' : State I ε W ρ α} {t : State I ε V τ α} {ls : List (Label ε ρ η)} (hi : Inv s)
    (hm : S.Meets C s ls) (hR : SeenAs as A s t) (hr : S.run s ls = some s') :
    T.Meets D t (S.viewed (sees as asEnv) s ls) ∧
      ∃ t', T.run t (S.viewed (sees as asEnv) s ls) = some t' ∧ SeenAs as A s' t' := by
  have hstep : ∀ s t l s', Inv s ∧ SeenAs as A s t → C s l → S.step s l = some s' →
      Matches T D (fun s t => Inv s ∧ SeenAs as A s t) s' t (sees as asEnv s l) := by
    intro s t l s' hst hc hs
    have hmatch := h.step hst.1 hc hst.2 hs
    have hi' := hinv s l s' hst.1 hs
    cases hv : sees as asEnv s l with
    | none =>
      rw [hv] at hmatch
      exact ⟨hi', hmatch⟩
    | some m =>
      rw [hv] at hmatch
      obtain ⟨-, t', ht', hR'⟩ := hmatch
      exact ⟨hD s t l m hst.1 hc hst.2 hv, t', ht', hi', hR'⟩
  obtain ⟨hmeets, t', ht', -, hR'⟩ := run_viewed hstep ⟨hi, hR⟩ hm hr
  exact ⟨hmeets, t', ht', hR'⟩

/-- Before any request there is nothing to see. -/
theorem seenAs_idle {w : W} {v : V} (h : A w v) :
    SeenAs as A (idle w : State I ε W ρ α) (idle v : State I ε V τ α) := ⟨h, fun _ => rfl⟩

end Party

/-! ### Calls that a request may make -/

/-- While the replies satisfy `R`, what is left of every process makes only the calls that its request may
make. -/
def State.Following (R : (o : I.Op) → I.Resp o → Prop) (N : ρ → I.Op → Prop) (s : State I ε W ρ α) : Prop :=
  ∀ pid p, s.procs pid = some p → p.prog.Follows R (N p.req) fun _ => True

theorem State.Following.step {R : (o : I.Op) → I.Resp o → Prop} {N : ρ → I.Op → Prop}
    {S : Service I ε W ρ η α} (hprog : ∀ r, (S.program r).Follows R (N r) fun _ => True)
    {s s' : State I ε W ρ α} {l : Label ε ρ η} (h : s.Following R N)
    (hreply : ∀ pid r o a, N r o → (S.handle pid r o s.world).1 = .ok a → R o a)
    (hs : S.step s l = some s') : s'.Following R N := by
  intro q p hp
  rcases step_cases hs with ⟨pid, r, rfl, -, rfl⟩ | ⟨pid, out, r, o, k, rfl, hproc, rfl⟩ | ⟨e, w, rfl, -, rfl⟩
  · rw [State.set_procs] at hp
    split at hp
    · obtain rfl := Option.some.inj hp
      exact hprog r
    · exact h q p hp
  · obtain ⟨ho, hok, herr⟩ := h pid _ hproc
    cases hrep : out.reply (S.handle pid r) o s.world with
    | none =>
      simp only [hrep, resume, State.set_procs] at hp
      split at hp
      · cases hp
      · exact h q p hp
    | some rep =>
      simp only [hrep, resume, State.set_procs] at hp
      split at hp
      · obtain rfl := Option.some.inj hp
        cases rep with
        | ok a => exact hok a (hreply pid r o a ho (Outcome.handler_ok hrep))
        | error e => exact herr e
      · exact h q p hp
  · exact h q p hp

theorem following_idle (R : (o : I.Op) → I.Resp o → Prop) (N : ρ → I.Op → Prop) (w : W) :
    (idle w : State I ε W ρ α).Following R N := by
  intro pid p hp
  cases hp

/-- What is left of every process makes only the calls that its request may make. -/
abbrev State.Bounded (N : ρ → I.Op → Prop) (s : State I ε W ρ α) : Prop := s.Following (fun _ _ => True) N

theorem State.Bounded.step {N : ρ → I.Op → Prop} {S : Service I ε W ρ η α}
    (hprog : ∀ r, (S.program r).Only (N r)) {s s' : State I ε W ρ α} {l : Label ε ρ η} (h : s.Bounded N)
    (hs : S.step s l = some s') : s'.Bounded N :=
  State.Following.step hprog h (fun _ _ _ _ _ _ => trivial) hs

end Service

end Calls
