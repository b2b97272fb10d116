import LegalRag.Calls.Program

/-!
# Services

A service runs one program for each request it receives, all of them against one world and interleaved
call by call.  A label of its transition system starts a request, makes the next call of a running one
with a given outcome, or is a step of the environment (time passes, a key expires, another party acts).

* `step_cases` says once what a step can do;
* `run_induct` is the invariant rule for the runs whose steps all meet a side condition (`Meets`),
`run_keeps` that for all runs, and `prefixes_iff_meets` says when a side condition is exact;
* `run_append`, `meets_append` cut a run in two.
-/

namespace Calls

/-- The requests `ρ` of a service: the program of each, what its start does to the world, the replies that
the process of a number gets, and what the environment can do. -/
structure Service (I : Iface) (ε W ρ η α : Type) where
  program : ρ → Prog I ε α
  enter : Nat → W → W
  handle : Nat → ρ → Handler I ε W
  env : η → W → Option W

/-- A request being served: what is left of its program, its result once that is `done`. -/
structure Proc (I : Iface) (ε ρ α : Type) where
  req : ρ
  prog : Prog I ε α

namespace Service

variable {I : Iface} {ε W ρ η α : Type}

/-- The world and the requests being served or already answered, by number. -/
structure State (I : Iface) (ε W ρ α : Type) where
  world : W
  procs : Nat → Option (Proc I ε ρ α)

/-- The steps of a service. -/
inductive Label (ε ρ η : Type) where
  | start (pid : Nat) (r : ρ)
  | call (pid : Nat) (out : Outcome ε)
  | env (e : η)

/-- The state before any request. -/
def idle (w : W) : State I ε W ρ α := ⟨w, fun _ => none⟩

/-- The process `pid` becomes `p`, or is gone. -/
def State.set (s : State I ε W ρ α) (w : W) (pid : Nat) (p : Option (Proc I ε ρ α)) : State I ε W ρ α :=
  ⟨w, Function.update s.procs pid p⟩

@[simp] theorem State.set_world (s : State I ε W ρ α) (w : W) (pid : Nat) (p : Option (Proc I ε ρ α)) :
    (s.set w pid p).world = w := rfl

theorem State.set_procs (s : State I ε W ρ α) (w : W) (pid q : Nat) (p : Option (Proc I ε ρ α)) :
    (s.set w pid p).procs q = if q = pid then p else s.procs q := by
  simp [State.set, Function.update_apply]

@[simp] theorem State.set_procs_self (s : State I ε W ρ α) (w : W) (pid : Nat) (p : Option (Proc I ε ρ α)) :
    (s.set w pid p).procs pid = p := by simp [State.set_procs]

theorem State.set_procs_of_ne (s : State I ε W ρ α) (w : W) {pid q : Nat} (p : Option (Proc I ε ρ α))
    (h : q ≠ pid) : (s.set w pid p).procs q = s.procs q := by simp [State.set_procs, h]

/-- The state after the next call `o` of process `pid`, of which the program sees the reply `r`. -/
def resume (s : State I ε W ρ α) (w : W) (pid : Nat) (req : ρ) {β : Type} (k : β → Prog I ε α) : Option β →
    State I ε W ρ α
  | some r => s.set w pid (some ⟨req, k r⟩)
  | none => s.set w pid none

/-- One step of the service; `none` where the label does not apply. -/
def step (S : Service I ε W ρ η α) (s : State I ε W ρ α) : Label ε ρ η → Option (State I ε W ρ α)
  | .start pid r =>
    match s.procs pid with
    | none => some (s.set (S.enter pid s.world) pid (some ⟨r, S.program r⟩))
    | some _ => none
  | .call pid out =>
    match s.procs pid with
    | some ⟨req, .call o k⟩ =>
      some (resume s (out.world (S.handle pid req) o s.world) pid req k
        (out.reply (S.handle pid req) o s.world))
    | _ => none
  | .env e => (S.env e s.world).map fun w => ⟨w, s.procs⟩

/-- A run of the service: the state after the labels, if each applies in turn. -/
def run (S : Service I ε W ρ η α) (s : State I ε W ρ α) : List (Label ε ρ η) → Option (State I ε W ρ α)
  | [] => some s
  | l :: ls => (S.step s l).bind fun s' => S.run s' ls

/-- Every step of the run meets the side condition `C`. -/
def Meets (S : Service I ε W ρ η α) (C : State I ε W ρ α → Label ε ρ η → Prop) :
    State I ε W ρ α → List (Label ε ρ η) → Prop
  | _, [] => True
  | s, l :: ls => C s l ∧ ∀ s', S.step s l = some s' → S.Meets C s' ls

variable {S : Service I ε W ρ η α}

/-- What a step can do: start a request, let a process make its next call and see the reply or die, or let
the environment act on the world. -/
theorem step_cases {s s' : State I ε W ρ α} {l : Label ε ρ η} (h : S.step s l = some s') :
    (∃ pid r, l = .start pid r ∧ s.procs pid = none ∧
      s' = s.set (S.enter pid s.world) pid (some ⟨r, S.program r⟩)) ∨
    (∃ pid out req o k, l = .call pid out ∧ s.procs pid = some ⟨req, .call o k⟩ ∧
      s' = resume s (out.world (S.handle pid req) o s.world) pid req k
        (out.reply (S.handle pid req) o s.world)) ∨
    (∃ e w, l = .env e ∧ S.env e s.world = some w ∧ s' = ⟨w, s.procs⟩) := by
  cases l with
  | start pid r =>
    left
    simp only [step] at h
    split at h
    · rename_i hp
      exact ⟨pid, r, rfl, hp, by simpa using h.symm⟩
    · cases h
  | call pid out =>
    right; left
    simp only [step] at h
    split at h
    · rename_i req o k hp
      exact ⟨pid, out, req, o, k, rfl, hp, by simpa using h.symm⟩
    · cases h
  | env e =>
    right; right
    simp only [step, Option.map_eq_some_iff] at h
    obtain ⟨w, hw, rfl⟩ := h
    exact ⟨e, w, rfl, hw, rfl⟩

/-- The process that takes a step. -/
def Label.pid : Label ε ρ η → Option Nat
  | .start pid _ | .call pid _ => some pid
  | .env _ => none

/-- A step leaves the processes alone that do not take it. -/
theorem step_procs {s s' : State I ε W ρ α} {l : Label ε ρ η} {q : Nat} (hq : l.pid ≠ some q)
    (h : S.step s l = some s') : s'.procs q = s.procs q := by
  rcases step_cases h with ⟨pid, r, rfl, -, rfl⟩ | ⟨pid, out, r, o, k, rfl, -, rfl⟩ | ⟨e, w, rfl, -, rfl⟩
  · have hne : q ≠ pid := fun he => hq (by rw [he]; rfl)
    exact State.set_procs_of_ne _ _ _ hne
  · have hne : q ≠ pid := fun he => hq (by rw [he]; rfl)
    cases out.reply (S.handle pid r) o s.world with
    | none => exact State.set_procs_of_ne _ _ _ hne
    | some rep => exact State.set_procs_of_ne _ _ _ hne
  · rfl

@[simp] theorem resume_world {s : State I ε W ρ α} {w : W} {pid : Nat} {req : ρ} {β : Type}
    {k : β → Prog I ε α} (r : Option β) : (resume s w pid req k r).world = w := by
  cases r <;> rfl

theorem run_cons {s s' : State I ε W ρ α} {l : Label ε ρ η} {ls : List (Label ε ρ η)}
    (h : S.run s (l :: ls) = some s') : ∃ t, S.step s l = some t ∧ S.run t ls = some s' := by
  simpa [run, Option.bind_eq_some_iff] using h

theorem run_append {s s' : State I ε W ρ α} {ls ls' : List (Label ε ρ η)}
    (h : S.run s (ls ++ ls') = some s') : ∃ t, S.run s ls = some t ∧ S.run t ls' = some s' := by
  induction ls generalizing s with
  | nil => exact ⟨s, rfl, h⟩
  | cons l ls ih =>
    obtain ⟨u, hu, h⟩ := run_cons h
    obtain ⟨t, ht, h⟩ := ih h
    exact ⟨t, by simp [run, hu, ht], h⟩

theorem meets_append {C : State I ε W ρ α → Label ε ρ η → Prop} {s t : State I ε W ρ α}
    {ls ls' : List (Label ε ρ η)} (hm : S.Meets C s (ls ++ ls')) (hr : S.run s ls = some t) :
    S.Meets C s ls ∧ S.Meets C t ls' := by
  induction ls generalizing s with
  | nil =>
    simp only [run, Option.some.injEq] at hr
    exact ⟨trivial, hr ▸ hm⟩
  | cons l ls ih =>
    obtain ⟨u, hu, hr⟩ := run_cons hr
    obtain ⟨hl, hrest⟩ := ih (hm.2 u hu) hr
    refine ⟨⟨hm.1, fun s' hs' => ?_⟩, hrest⟩
    rw [hu, Option.some.injEq] at hs'
    exact hs' ▸ hl

/-- The invariant rule: what the steps that meet `C` preserve holds at the end of every run that meets
`C`. -/
theorem run_induct {C : State I ε W ρ α → Label ε ρ η → Prop} {Inv : State I ε W ρ α → Prop}
    (hstep : ∀ s l s', Inv s → C s l → S.step s l = some s' → Inv s') {s s' : State I ε W ρ α}
    {ls : List (Label ε ρ η)} (hi : Inv s) (hm : S.Meets C s ls) (hr : S.run s ls = some s') : Inv s' := by
  induction ls generalizing s with
  | nil =>
    simp only [run, Option.some.injEq] at hr
    exact hr ▸ hi
  | cons l ls ih =>
    obtain ⟨t, ht, hr⟩ := run_cons hr
    exact ih (hstep s l t hi hm.1 ht) (hm.2 t ht) hr

/-- If a step keeps `Q` exactly when it meets `C`, then `Q` holds in every state of a run exactly when the
run meets `C`. -/
theorem prefixes_iff_meets {C : State I ε W ρ α → Label ε ρ η → Prop} {Inv Q : State I ε W ρ α → Prop}
    (hinv : ∀ s l s', Inv s → S.step s l = some s' → Inv s')
    (hstep : ∀ s l s', Inv s → Q s → S.step s l = some s' → (Q s' ↔ C s l))
    (hnone : ∀ s l, S.step s l = none → C s l) {s : State I ε W ρ α} {ls : List (Label ε ρ η)}
    (hi : Inv s) (hq : Q s) : (∀ ls₁ t, ls₁ <+: ls → S.run s ls₁ = some t → Q t) ↔ S.Meets C s ls := by
  induction ls generalizing s with
  | nil =>
    refine iff_of_true (fun ls₁ t hpre ht => ?_) trivial
    obtain rfl := List.prefix_nil.mp hpre
    simp only [run, Option.some.injEq] at ht
    exact ht ▸ hq
  | cons l ls ih =>
    constructor
    · intro h
      have hl : ∀ s', S.step s l = some s' → Q s' := by
        intro s' hs'
        exact h [l] s' (by simp) (by simp [run, hs'])
      constructor
      · cases hs : S.step s l with
        | none => exact hnone s l hs
        | some s' => exact (hstep s l s' hi hq hs).mp (hl s' hs)
      · intro s' hs'
        refine (ih (hinv s l s' hi hs') (hl s' hs')).mp fun ls₁ t hpre ht => ?_
        exact h (l :: ls₁) t (List.cons_prefix_cons.mpr ⟨rfl, hpre⟩) (by simp [run, hs', ht])
    · intro hm ls₁ t hpre ht
      cases ls₁ with
      | nil =>
        simp only [run, Option.some.injEq] at ht
        exact ht ▸ hq
      | cons l' ls₁ =>
        obtain ⟨hl, hrest⟩ := List.cons_prefix_cons.mp hpre
        subst hl
        obtain ⟨s', hs', ht⟩ := run_cons ht
        have hq' : Q s' := (hstep s l' s' hi hq hs').mpr hm.1
        exact (ih (hinv s l' s' hi hs') hq').mpr (hm.2 s' hs') ls₁ t hrest ht

/-- Whether a given run meets a decidable side condition can be computed. -/
instance decidableMeets (S : Service I ε W ρ η α) (C : State I ε W ρ α → Label ε ρ η → Prop)
    [∀ s l, Decidable (C s l)] : ∀ s ls, Decidable (S.Meets C s ls)
  | _, [] => isTrue trivial
  | s, l :: ls =>
    match h : S.step s l with
    | none => decidable_of_iff (C s l) ⟨fun hc => ⟨hc, by simp [h]⟩, And.left⟩
    | some t =>
      have := decidableMeets S C t ls
      decidable_of_iff (C s l ∧ S.Meets C t ls) (and_congr_right' (by simp [h]))

/-- A step of the environment, or of a process numbered below `n`. -/
def Label.Below (n : Nat) : Label ε ρ η → Prop
  | .start pid _ | .call pid _ => pid < n
  | .env _ => True

instance (n : Nat) : DecidablePred (Label.Below n : Label ε ρ η → Prop)
  | .start pid _ | .call pid _ => inferInstanceAs (Decidable (pid < n))
  | .env _ => isTrue trivial

/-- No process is numbered `n` or more. -/
def State.Below (n : Nat) (s : State I ε W ρ α) : Prop := ∀ q, n ≤ q → s.procs q = none

private theorem State.Below.step {n : Nat} {s s' : State I ε W ρ α} {l : Label ε ρ η} (hs : s.Below n)
    (hl : l.Below n) (h : S.step s l = some s') : s'.Below n := by
  intro q hq
  rcases step_cases h with ⟨pid, r, rfl, -, rfl⟩ | ⟨pid, out, req, o, k, rfl, -, rfl⟩ | ⟨e, w, rfl, -, rfl⟩
  · have hne : q ≠ pid := fun he => absurd hl (Nat.not_lt.mpr (he ▸ hq))
    rw [State.set_procs_of_ne _ _ _ hne]
    exact hs q hq
  · have hne : q ≠ pid := fun he => absurd hl (Nat.not_lt.mpr (he ▸ hq))
    cases out.reply (S.handle pid req) o s.world <;> exact (State.set_procs_of_ne _ _ _ hne).trans (hs q hq)
  · exact hs q hq

/-- In a run of the processes below `n` a condition on all processes need only be checked for those. -/
theorem meets_of_below {C : State I ε W ρ α → Label ε ρ η → Prop} (n : Nat)
    (C' : State I ε W ρ α → Label ε ρ η → Prop) (hC : ∀ s l, s.Below n → C' s l → C s l)
    {s : State I ε W ρ α} {ls : List (Label ε ρ η)} (hs : s.Below n)
    (h : S.Meets (fun s l => l.Below n ∧ C' s l) s ls) : S.Meets C s ls := by
  induction ls generalizing s with
  | nil => trivial
  | cons l ls ih => exact ⟨hC s l hs h.1.2, fun s' hs' => ih (hs.step h.1.1 hs') (h.2 s' hs')⟩

theorem idle_below (n : Nat) (w : W) : (idle w : State I ε W ρ α).Below n := fun _ _ => rfl

theorem State.Below.run {n : Nat} {s s' : State I ε W ρ α} {ls : List (Label ε ρ η)} (hs : s.Below n)
    (hl : ∀ l ∈ ls, l.Below n) (h : S.run s ls = some s') : s'.Below n := by
  induction ls generalizing s with
  | nil =>
    simp only [Service.run, Option.some.injEq] at h
    exact h ▸ hs
  | cons l ls ih =>
    obtain ⟨t, ht, h⟩ := run_cons h
    exact ih (hs.step (hl l (by simp)) ht) (fun l' hl' => hl l' (by simp [hl'])) h

/-- A request that is served alone comes to its end. -/
theorem run_exec {pid : Nat} {r : ρ} (p : Prog I ε α) {s : State I ε W ρ α} (hp : s.procs pid = some ⟨r, p⟩) :
    ∃ n, S.run s (List.replicate n (.call pid .ok)) =
      some (s.set (p.exec (S.handle pid r) s.world).2 pid
        (some ⟨r, .done (p.exec (S.handle pid r) s.world).1⟩)) := by
  induction p generalizing s with
  | done x =>
    refine ⟨0, ?_⟩
    have hself : Function.update s.procs pid (some ⟨r, .done x⟩) = s.procs := by
      rw [← hp, Function.update_eq_self]
    show some s = some ⟨s.world, Function.update s.procs pid (some ⟨r, .done x⟩)⟩
    rw [hself]
  | call o k ih =>
    have hstep : S.step s (.call pid .ok) =
        some (s.set (S.handle pid r o s.world).2 pid (some ⟨r, k (S.handle pid r o s.world).1⟩)) := by
      simp only [step, hp]
      rfl
    obtain ⟨n, hn⟩ := ih _ (State.set_procs_self s (S.handle pid r o s.world).2 pid
      (some ⟨r, k (S.handle pid r o s.world).1⟩))
    refine ⟨n + 1, ?_⟩
    rw [List.replicate_succ]
    show (S.step s (.call pid .ok)).bind _ = _
    rw [hstep]
    show S.run _ _ = _
    rw [hn]
    simp [State.set]

/-- A new request that is served alone. -/
theorem run_serve {pid : Nat} (r : ρ) {s : State I ε W ρ α} (hp : s.procs pid = none) :
    ∃ n, S.run s (.start pid r :: List.replicate n (.call pid .ok)) =
      some (s.set ((S.program r).exec (S.handle pid r) (S.enter pid s.world)).2 pid
        (some ⟨r, .done ((S.program r).exec (S.handle pid r) (S.enter pid s.world)).1⟩)) := by
  obtain ⟨n, hn⟩ :=
    run_exec (S := S) (S.program r)
    (State.set_procs_self s (S.enter pid s.world) pid (some ⟨r, S.program r⟩))
  refine ⟨n, ?_⟩
  have hstep : S.step s (.start pid r) = some (s.set (S.enter pid s.world) pid (some ⟨r, S.program r⟩)) := by
    simp only [step, hp]
  show (S.step s (.start pid r)).bind _ = _
  rw [hstep]
  show S.run _ _ = _
  rw [hn]
  simp [State.set]

theorem run_trans {s t u : State I ε W ρ α} {ls ls' : List (Label ε ρ η)} (h : S.run s ls = some t)
    (h' : S.run t ls' = some u) : S.run s (ls ++ ls') = some u := by
  induction ls generalizing s with
  | nil =>
    obtain rfl := Option.some.inj h
    exact h'
  | cons l ls ih =>
    obtain ⟨v, hv, h⟩ := run_cons h
    show (S.step s l).bind _ = _
    rw [hv]
    exact ih h

/-- Every request has been answered, or its process is gone. -/
def State.Finished (s : State I ε W ρ α) : Prop := ∀ pid p, s.procs pid = some p → ∃ r, p.prog = .done r

/-- The process has no call left to make. -/
def State.isFinished (s : State I ε W ρ α) (pid : Nat) : Bool :=
  match s.procs pid with
  | some ⟨_, .call _ _⟩ => false
  | _ => true

/-- The next call of a process. -/
def State.nextOp (s : State I ε W ρ α) (pid : Nat) : Option I.Op :=
  match s.procs pid with
  | some ⟨_, .call o _⟩ => some o
  | _ => none

theorem State.nextOp_call {s : State I ε W ρ α} {pid : Nat} {r : ρ} {o : I.Op}
    {k : Except ε (I.Resp o) → Prog I ε α}
    (h : s.procs pid = some ⟨r, .call o k⟩) : s.nextOp pid = some o := by
  unfold State.nextOp
  rw [h]

/-- The result of a process that is over. -/
def State.result (s : State I ε W ρ α) (pid : Nat) : Option (Except ε α) :=
  match s.procs pid with
  | some ⟨_, .done r⟩ => some r
  | _ => none

theorem State.result_eq_some {s : State I ε W ρ α} {pid : Nat} {r : Except ε α} :
    s.result pid = some r ↔ ∃ req, s.procs pid = some ⟨req, .done r⟩ := by
  unfold State.result
  constructor
  · intro h
    split at h
    · rename_i req r' hp
      obtain rfl : r' = r := Option.some.inj h
      exact ⟨req, hp⟩
    · cases h
  · rintro ⟨req, hp⟩
    rw [hp]

theorem State.Below.finished {n : Nat} {s : State I ε W ρ α} (hs : s.Below n)
    (h : (List.range n).all s.isFinished = true) : s.Finished := by
  intro pid p hp
  by_cases hpid : pid < n
  · have hover : s.isFinished pid = true := List.all_eq_true.mp h pid (List.mem_range.mpr hpid)
    unfold State.isFinished at hover
    obtain ⟨req, prog⟩ := p
    cases prog with
    | done r => exact ⟨r, rfl⟩
    | call o k => simp [hp] at hover
  · rw [hs pid (Nat.le_of_not_lt hpid)] at hp
    cases hp

theorem Meets.imp {C C' : State I ε W ρ α → Label ε ρ η → Prop} (hC : ∀ s l, C s l → C' s l)
    {s : State I ε W ρ α} {ls : List (Label ε ρ η)} (h : S.Meets C s ls) : S.Meets C' s ls := by
  induction ls generalizing s with
  | nil => trivial
  | cons l ls ih => exact ⟨hC s l h.1, fun s' hs' => ih (h.2 s' hs')⟩

/-- What holds at the end of a run and is inherited backwards holds before every step of it. -/
theorem Meets.and_of_end {C : State I ε W ρ α → Label ε ρ η → Prop} {Inv B : State I ε W ρ α → Prop}
    (hinv : ∀ s l s', Inv s → S.step s l = some s' → Inv s')
    (hback : ∀ s l s', Inv s → S.step s l = some s' → B s' → B s) {s t : State I ε W ρ α}
    {ls : List (Label ε ρ η)} (hi : Inv s) (hm : S.Meets C s ls) (hr : S.run s ls = some t) (ht : B t) :
    B s ∧ S.Meets (fun s l => C s l ∧ B s) s ls := by
  induction ls generalizing s with
  | nil =>
    simp only [run, Option.some.injEq] at hr
    exact ⟨hr ▸ ht, trivial⟩
  | cons l ls ih =>
    obtain ⟨s', hs', hr⟩ := run_cons hr
    obtain ⟨hb', hm'⟩ := ih (hinv s l s' hi hs') (hm.2 s' hs') hr
    have hb : B s := hback s l s' hi hs' hb'
    refine ⟨hb, ⟨hm.1, hb⟩, fun u hu => ?_⟩
    rw [hs', Option.some.injEq] at hu
    exact hu ▸ hm'

/-- Every run meets the trivial side condition. -/
theorem meets_true (s : State I ε W ρ α) (ls : List (Label ε ρ η)) : S.Meets (fun _ _ => True) s ls := by
  induction ls generalizing s with
  | nil => trivial
  | cons l ls ih => exact ⟨trivial, fun s' _ => ih s'⟩

/-- A condition on the labels of a run. -/
theorem meets_labels {L : Label ε ρ η → Prop} {s : State I ε W ρ α} {ls : List (Label ε ρ η)}
    (hl : ∀ l ∈ ls, L l) : S.Meets (fun _ l => L l) s ls := by
  induction ls generalizing s with
  | nil => trivial
  | cons l ls ih =>
    exact ⟨hl l (List.mem_cons_self ..), fun s' _ => ih fun l' hl' => hl l' (List.mem_cons_of_mem l hl')⟩

/-- What the steps with labels of `L` preserve holds before every step of a run of such labels. -/
theorem meets_inv {Inv : State I ε W ρ α → Prop} {L : Label ε ρ η → Prop}
    (hstep : ∀ s l s', L l → Inv s → S.step s l = some s' → Inv s') {s : State I ε W ρ α}
    {ls : List (Label ε ρ η)} (hs : Inv s) (hl : ∀ l ∈ ls, L l) : S.Meets (fun s _ => Inv s) s ls := by
  induction ls generalizing s with
  | nil => trivial
  | cons l ls ih =>
    refine ⟨hs, fun s' hs' => ?_⟩
    exact ih (hstep s l s' (hl l (List.mem_cons_self ..)) hs hs') fun l' hl' =>
      hl l' (List.mem_cons_of_mem l hl')

/-- What every step preserves holds at the end of every run. -/
theorem run_keeps (Inv : State I ε W ρ α → Prop) (hstep : ∀ s l s', Inv s → S.step s l = some s' → Inv s')
    {s s' : State I ε W ρ α} {ls : List (Label ε ρ η)} (hi : Inv s) (hr : S.run s ls = some s') : Inv s' :=
  run_induct (fun s l s' hi _ hs => hstep s l s' hi hs) hi (meets_true s ls) hr

/-- What a process keeps by its own calls, whatever their replies, holds of it at the end of every run in
which it is not started anew. -/
private theorem proc_induct {G : Proc I ε ρ α → Prop} {pid : Nat}
    (hcall : ∀ r o k rep, G ⟨r, .call o k⟩ → G ⟨r, k rep⟩) {s s' : State I ε W ρ α}
    {ls : List (Label ε ρ η)} (hnew : ∀ r, Label.start pid r ∉ ls)
    (hs : ∀ p, s.procs pid = some p → G p) (hrun : S.run s ls = some s') : ∀ p,
    s'.procs pid = some p → G p := by
  induction ls generalizing s with
  | nil =>
    obtain rfl := Option.some.inj hrun
    exact hs
  | cons l ls ih =>
    obtain ⟨t, ht, hrun⟩ := run_cons hrun
    refine ih (fun r hr => hnew r (List.mem_cons_of_mem l hr)) ?_ hrun
    intro p hp
    by_cases hq : l.pid = some pid
    · rcases step_cases ht with ⟨q, r, rfl, -, rfl⟩ | ⟨q, out, r, o, k, rfl, hproc, rfl⟩ | ⟨e, w, rfl, -, rfl⟩
      · obtain rfl : q = pid := by simpa [Label.pid] using hq
        exact absurd (List.mem_cons_self ..) (hnew r)
      · obtain rfl : q = pid := by simpa [Label.pid] using hq
        cases hrep : out.reply (S.handle q r) o s.world with
        | none => simp [resume, hrep] at hp
        | some rep =>
          obtain rfl : ⟨r, k rep⟩ = p := by simpa [resume, hrep] using hp
          exact hcall r o k rep (hs _ hproc)
      · simp [Label.pid] at hq
    · exact hs p ((step_procs hq ht).symm.trans hp)

/-- The same from a call of the process, of which the reply is known. -/
theorem proc_induct_call {G : Proc I ε ρ α → Prop} {pid : Nat}
    (hcall : ∀ r o k rep, G ⟨r, .call o k⟩ → G ⟨r, k rep⟩) {s s' : State I ε W ρ α} {out : Outcome ε}
    {ls : List (Label ε ρ η)} (hnew : ∀ r, Label.start pid r ∉ ls) {r : ρ} {o : I.Op}
    {k : Except ε (I.Resp o) → Prog I ε α} (hp : s.procs pid = some ⟨r, .call o k⟩)
    (hrep : ∀ rep, out.reply (S.handle pid r) o s.world = some rep → G ⟨r, k rep⟩)
    (hrun : S.run s (.call pid out :: ls) = some s') : ∀ p, s'.procs pid = some p → G p := by
  obtain ⟨t, ht, hrun⟩ := run_cons hrun
  refine proc_induct hcall hnew ?_ hrun
  intro p hpt
  simp only [step, hp, Option.some.injEq] at ht
  subst ht
  cases hreply : out.reply (S.handle pid r) o s.world with
  | none => simp [resume, hreply] at hpt
  | some rep =>
    obtain rfl : ⟨r, k rep⟩ = p := by simpa [resume, hreply] using hpt
    exact hrep rep hreply

end Service

end Calls
