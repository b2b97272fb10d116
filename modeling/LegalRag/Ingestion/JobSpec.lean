import LegalRag.Ingestion.World

/-!
# A Hoare logic for ingestion jobs

`Spec` speaks about the stores only: started from stores that satisfy `Q`, the program keeps `inv` after
each of its calls, whatever their outcomes, and ends with a result and stores that satisfy `R`.  With
`faults = false` no call fails on its way; a call may then still answer with an error of its own, such as
a violated constraint.

* `spec_call`, `spec_bind`, `spec_except` follow the shape of a program;
* `spec_scope`: a session is one step on the stores, its commit.
-/

namespace LegalRag

open Calls Prog Relational

/-- The outcomes a call may have. -/
def JobOutcome (faults : Bool) (_ : JobCalls.Op) (out : Outcome JobErr) : Prop :=
  faults = true ∨ out = .ok

/-- What a program does to the stores. -/
def Spec {α : Type} (faults : Bool) (pid : Nat) (env : JobReplies) (inv : Stores → Prop)
    (Q : Stores → Prop) (p : JobProg α) (R : Except JobErr α → Stores → Prop) : Prop :=
  ∀ w, Q w.stores →
    p.Always (jobHandler pid env) (JobOutcome faults) (fun v => inv v.stores) (fun r v => R r v.stores) w

variable {α β : Type} {faults : Bool} {pid : Nat} {env : JobReplies} {inv Q : Stores → Prop}

/-- A call, from its outcome without a fault and from those with one. -/
theorem always_job {o : JobCalls.Op} {I : JobWorld → Prop}
    {k : Except JobErr (JobCalls.Resp o) → JobProg α} {post : Except JobErr α → JobWorld → Prop}
    {w : JobWorld} (hi : I w) (hi' : I (jobReply pid env o w).2)
    (hok : (k (jobReply pid env o w).1).Always (jobHandler pid env) (JobOutcome faults) I post
      (jobReply pid env o w).2) (herr : faults = true → ∀ e v, v = w ∨ v = (jobReply pid env o w).2 →
      (k (.error e)).Always (jobHandler pid env) (JobOutcome faults) I post v) :
    (Prog.call o k).Always (jobHandler pid env) (JobOutcome faults) I post w := by
  refine always_call_of hi hi' (fun _ => hok) ?_
  intro e applied ha
  have hf : faults = true := ha.resolve_right (by simp)
  cases applied with
  | true => exact herr hf e _ (Or.inr rfl)
  | false => exact herr hf e _ (Or.inl rfl)

theorem Spec.mono {p : JobProg α} {R R' : Except JobErr α → Stores → Prop} {Q' : Stores → Prop}
    (h : Spec faults pid env inv Q p R) (hQ : ∀ s, Q' s → Q s) (hR : ∀ r s, inv s → R r s → R' r s) :
    Spec faults pid env inv Q' p R' := fun _ hw => (h _ (hQ _ hw)).mono fun r _ hi hr => hR r _ hi hr

theorem spec_done {r : Except JobErr α} {R : Except JobErr α → Stores → Prop} (hinv : ∀ s, Q s → inv s)
    (hR : ∀ s, Q s → R r s) : Spec faults pid env inv Q (.done r) R := fun _ hw => ⟨hinv _ hw, hR _ hw⟩

/-- Cases on what is known of the stores. -/
theorem spec_of_forall {p : JobProg α} {R : Except JobErr α → Stores → Prop}
    (h : ∀ s, Q s → Spec faults pid env inv (fun t => t = s) p R) : Spec faults pid env inv Q p R :=
  fun w hw => h w.stores hw w rfl

/-- A call whose reply and effect depend on the stores only. -/
theorem spec_call {o : JobCalls.Op} (rep : Stores → Except JobErr (JobCalls.Resp o))
    (eff : Stores → Stores) {R : Except JobErr (JobCalls.Resp o) → Stores → Prop}
    (hrep : ∀ w, (jobReply pid env o w).1 = rep w.stores)
    (heff : ∀ w, (jobReply pid env o w).2.stores = eff w.stores) (hinv : ∀ s, Q s → inv s ∧ inv (eff s))
    (hok : ∀ s, Q s → R (rep s) (eff s))
    (herr : faults = true → ∀ e s, Q s → R (.error e) s ∧ R (.error e) (eff s)) :
    Spec faults pid env inv Q (job o) R := by
  intro w hw
  obtain ⟨hi, hi'⟩ := hinv _ hw
  have hinv' : inv (jobReply pid env o w).2.stores := by
    rw [heff]
    exact hi'
  refine always_job hi hinv' ⟨hinv', ?_⟩ fun hf e v hv => ?_
  · show R (jobReply pid env o w).1 (jobReply pid env o w).2.stores
    rw [hrep, heff]
    exact hok _ hw
  · obtain ⟨hr, hr'⟩ := herr hf e _ hw
    rcases hv with rfl | rfl
    · exact ⟨hi, hr⟩
    · refine ⟨hinv', ?_⟩
      show R (.error e) (jobReply pid env o w).2.stores
      rw [heff]
      exact hr'

/-- A call from known stores, and the rest of the program. -/
theorem spec_step {s : Stores} {o : JobCalls.Op} {f : JobCalls.Resp o → JobProg α}
    (rep : Except JobErr (JobCalls.Resp o)) (s' : Stores) {R : Except JobErr α → Stores → Prop}
    (hrep : ∀ w, w.stores = s → (jobReply pid env o w).1 = rep)
    (heff : ∀ w, w.stores = s → (jobReply pid env o w).2.stores = s') (hi : inv s) (hi' : inv s')
    (hok : ∀ a, rep = .ok a → Spec faults pid env inv (fun u => u = s') (f a) R)
    (hrej : ∀ e, rep = .error e → R (.error e) s')
    (herr : faults = true → ∀ e, R (.error e) s ∧ R (.error e) s') :
    Spec faults pid env inv (fun u => u = s) (job o >>= f) R := by
  intro w hw
  have hrep := hrep w hw
  have heff := heff w hw
  have hinv : inv (jobReply pid env o w).2.stores := by rwa [heff]
  have hw' : inv w.stores := by rwa [hw]
  refine always_job hw' hinv ?_ fun hf e v hv => ?_
  · rw [hrep]
    cases hr : rep with
    | ok a => exact hok a hr _ heff
    | error e =>
      refine ⟨hinv, ?_⟩
      show R (.error e) (jobReply pid env o w).2.stores
      rw [heff]
      exact hrej e hr
  · obtain ⟨hr, hr'⟩ := herr hf e
    rcases hv with rfl | rfl
    · refine ⟨hw', ?_⟩
      show R (.error e) v.stores
      rw [hw]
      exact hr
    · refine ⟨hinv, ?_⟩
      show R (.error e) (jobReply pid env o w).2.stores
      rw [heff]
      exact hr'

/-- A call that answers with `a`, and the rest of the program. -/
theorem spec_ok {s : Stores} {o : JobCalls.Op} {f : JobCalls.Resp o → JobProg α} (a : JobCalls.Resp o)
    (s' : Stores) {R : Except JobErr α → Stores → Prop}
    (hrep : ∀ w, w.stores = s → (jobReply pid env o w).1 = .ok a)
    (heff : ∀ w, w.stores = s → (jobReply pid env o w).2.stores = s') (hi : inv s) (hi' : inv s')
    (hok : Spec faults pid env inv (fun u => u = s') (f a) R)
    (herr : faults = true → ∀ e, R (.error e) s ∧ R (.error e) s') :
    Spec faults pid env inv (fun u => u = s) (job o >>= f) R := by
  refine spec_step (.ok a) s' hrep heff hi hi' ?_ ?_ herr
  · intro b hb
    cases hb
    exact hok
  · intro e he
    cases he

theorem spec_bind {p : JobProg α} {f : α → JobProg β} {M : Except JobErr α → Stores → Prop}
    {R : Except JobErr β → Stores → Prop} (hp : Spec faults pid env inv Q p M)
    (hf : ∀ a, Spec faults pid env inv (M (.ok a)) (f a) R)
    (herr : ∀ e s, inv s → M (.error e) s → R (.error e) s) : Spec faults pid env inv Q (p >>= f) R := by
  intro w hw
  refine always_bind ((hp w hw).mono fun r v hi hr => ?_)
  cases r with
  | ok a => exact hf a v hr
  | error e => exact ⟨hi, herr e _ hi hr⟩

theorem spec_except {p : JobProg α} {h : String → JobProg α} {M R : Except JobErr α → Stores → Prop}
    (hp : Spec faults pid env inv Q p M) (hok : ∀ a s, M (.ok a) s → R (.ok a) s)
    (hcancel : ∀ s, M (.error .cancelled) s → R (.error .cancelled) s)
    (hexc : ∀ text, Spec faults pid env inv (M (.error (.exception text))) (h text) R) :
    Spec faults pid env inv Q (exceptException p h) R := by
  intro w hw
  refine always_handle ((hp w hw).mono fun r v hi hr => ?_)
  cases r with
  | ok a => exact ⟨hi, hok a _ hr⟩
  | error e =>
    cases e with
    | exception text => exact hexc text v hr
    | cancelled => exact ⟨hi, hcancel _ hr⟩

/-- The body of a session only collects statements: started with `sts₀`, it ends with what `K` says. -/
def CollectsFrom (faults : Bool) (pid : Nat) (env : JobReplies) (s : Stores) (sts₀ : List Stmt)
    (body : JobProg α) (K : Except JobErr α → List Stmt → Prop) : Prop :=
  ∀ w, w.stores = s → (w.executions pid).pending = sts₀ →
    body.Always (jobHandler pid env) (JobOutcome faults) (fun v => v.stores = s)
      (fun r v => K r (v.executions pid).pending) w

/-- The body of a session, from the beginning. -/
abbrev Collects (faults : Bool) (pid : Nat) (env : JobReplies) (s : Stores) (body : JobProg α)
    (K : Except JobErr α → List Stmt → Prop) : Prop := CollectsFrom faults pid env s [] body K

section Collects

variable {s : Stores} {sts : List Stmt} {K : Except JobErr α → List Stmt → Prop} {o : JobCalls.Op}

theorem collects_done {r : Except JobErr α} (h : K r sts) :
    CollectsFrom faults pid env s sts (.done r) K := by
  intro w hs hp
  refine ⟨hs, ?_⟩
  show K r (w.executions pid).pending
  rwa [hp]

/-- A call of the body that answers with `a` and collects `new`. -/
theorem collects_call {k : Except JobErr (JobCalls.Resp o) → JobProg α} (a : JobCalls.Resp o)
    (new : List Stmt) (hreply : ∀ w, w.stores = s → (w.executions pid).pending = sts →
    (jobReply pid env o w).1 = .ok a ∧
      (jobReply pid env o w).2.stores = s ∧
      ((jobReply pid env o w).2.executions pid).pending = sts ++ new)
    (hok : CollectsFrom faults pid env s (sts ++ new) (k (.ok a)) K)
    (herr : faults = true → ∀ e sts', CollectsFrom faults pid env s sts' (k (.error e)) K) :
    CollectsFrom faults pid env s sts (.call o k) K := by
  intro w hs hp
  obtain ⟨hrep, heff, hpend⟩ := hreply w hs hp
  refine always_job hs heff ?_ fun hf e v hv => ?_
  · rw [hrep]
    exact hok _ heff hpend
  · rcases hv with rfl | rfl
    · exact herr hf e _ v hs rfl
    · exact herr hf e _ _ heff rfl

/-- A statement that the tables accept. -/
theorem statement_accepted {w : JobWorld} {st : Stmt} (hs : w.stores = s)
    (hp : (w.executions pid).pending = sts) (h : (s.applyAll (sts ++ [st])).isSome) :
    (w.statement pid st).1 = .ok () ∧ (w.statement pid st).2.stores = s ∧
      ((w.statement pid st).2.executions pid).pending = sts ++ [st] := by
  obtain ⟨s', hs'⟩ := Option.isSome_iff_exists.mp h
  simp [JobWorld.statement, JobWorld.setExecution, hs, hp, hs']

/-- A statement that the tables refuse. -/
theorem statement_refused {w : JobWorld} {st : Stmt} (hs : w.stores = s)
    (hp : (w.executions pid).pending = sts) (h : s.applyAll (sts ++ [st]) = none) :
    w.statement pid st = (.error (.exception "IntegrityError"), w) := by
  simp [JobWorld.statement, hs, hp, h]

/-- A call of the body that fails on its own. -/
theorem collects_refused {k : Except JobErr (JobCalls.Resp o) → JobProg α} {e : JobErr}
    (hreply : ∀ w, w.stores = s → (w.executions pid).pending = sts → jobReply pid env o w = (.error e, w))
    (hrej : CollectsFrom faults pid env s sts (k (.error e)) K)
    (herr : faults = true → ∀ e sts', CollectsFrom faults pid env s sts' (k (.error e)) K) :
    CollectsFrom faults pid env s sts (.call o k) K := by
  intro w hs hp
  have hrep := hreply w hs hp
  refine always_job hs (by rw [hrep]; exact hs) ?_ fun hf e' v hv => ?_
  · rw [hrep]
    exact hrej w hs hp
  · have hv : v = w := by
      rcases hv with rfl | rfl
      · rfl
      · rw [hrep]
    rw [hv]
    exact herr hf e' _ w hs rfl

end Collects

/-- A session: its statements take effect together at the commit, or not at all. -/
theorem spec_scope {body : JobProg α} {K : Stores → Except JobErr α → List Stmt → Prop}
    {R : Except JobErr α → Stores → Prop} (hbody : ∀ s, Q s → Collects faults pid env s body (K s))
    (hinv : ∀ s, Q s → inv s)
    (hcommit : ∀ s a sts s', Q s → K s (.ok a) sts → s.applyAll sts = some s' → inv s' ∧ R (.ok a) s')
    (hreject : ∀ s a sts, Q s → K s (.ok a) sts → s.applyAll sts = none →
      R (.error (.exception "IntegrityError")) s)
    (herror : ∀ s e sts, Q s → K s (.error e) sts → R (.error e) s)
    (hfault : faults = true → ∀ s e s', Q s →
      (s' = s ∨ ∃ a sts, K s (.ok a) sts ∧ s.applyAll sts = some s') → R (.error e) s') :
    Spec faults pid env inv Q (sessionScope body) R := by
  intro w hw
  have hi : inv w.stores := hinv _ hw
  -- `rollback` and the exception that goes on
  have hroll : ∀ v text, inv v.stores → (R (.error (.exception text)) v.stores) →
      (faults = true → ∀ e, R (.error e) v.stores) →
      (do job .rollback
          throw (.exception text) : JobProg α).Always (jobHandler pid env) (JobOutcome faults)
            (fun v => inv v.stores) (fun r v => R r v.stores) v := by
    intro v text hv hr hf
    refine always_job hv hv ⟨hv, hr⟩ fun hfault e u hu => ?_
    rcases hu with rfl | rfl
    · exact ⟨hv, hf hfault e⟩
    · exact ⟨hv, hf hfault e⟩
  have hcatch : ∀ v e, inv v.stores → R (.error e) v.stores →
    (faults = true → ∀ e, R (.error e) v.stores) →
      (exceptException (.done (.error e) : JobProg α) fun text => do
        job .rollback
        throw (.exception text)).Always (jobHandler pid env) (JobOutcome faults) (fun v => inv v.stores)
        (fun r v => R r v.stores) v := by
    intro v e hv hr hf
    cases e with
    | exception text => exact hroll v text hv hr hf
    | cancelled => exact ⟨hv, hr⟩
  refine always_job hi hi ?_ fun hf e v hv => ?_
  swap
  · rcases hv with rfl | rfl
    · exact ⟨hi, hfault hf _ e _ hw (Or.inl rfl)⟩
    · exact ⟨hi, hfault hf _ e _ hw (Or.inl rfl)⟩
  -- the session is open
  have hopen := hbody w.stores hw (w.setExecution pid { w.executions pid with pending := [] }) rfl
    (by simp [JobWorld.setExecution])
  refine always_handle (always_bind ?_)
  have hweak : body.Always (jobHandler pid env) (JobOutcome faults) (fun v => inv v.stores)
      (fun r v => v.stores = w.stores ∧ K w.stores r (v.executions pid).pending)
      (w.setExecution pid { w.executions pid with pending := [] }) := by
    refine Always.weaken (hopen.mono fun r v hv hk => ⟨hv, hk⟩) fun v hv => ?_
    rw [hv]
    exact hi
  refine hweak.mono fun r v hv hk => ?_
  obtain ⟨hs, hk⟩ := hk
  have hQ : Q v.stores := by rwa [hs]
  cases r with
  | error e =>
    refine ⟨hv, hcatch v e hv ?_ fun hf e' => ?_⟩
    · rw [hs]
      exact herror _ _ _ hw hk
    · rw [hs]
      exact hfault hf _ _ _ hw (Or.inl rfl)
  | ok a =>
    rw [← hs] at hk
    cases hc : v.stores.applyAll (v.executions pid).pending with
    | none =>
      have hreply : jobReply pid env .commit v = (.error (.exception "IntegrityError"), v) := by
        simp only [jobReply, hc]
      refine always_job hv (by rw [hreply]; exact hv) ?_ fun hf e u hu => ?_
      · rw [hreply]
        exact ⟨hv, hcatch v _ hv (hreject _ _ _ hQ hk hc) fun hf e' => hfault hf _ _ _ hQ (Or.inl rfl)⟩
      · have hu : u = v := by
          rcases hu with rfl | rfl
          · rfl
          · rw [hreply]
        rw [hu]
        exact ⟨hv, hcatch v e hv (hfault hf _ _ _ hQ (Or.inl rfl)) fun hf e' =>
          hfault hf _ _ _ hQ (Or.inl rfl)⟩
    | some s' =>
      obtain ⟨hi', hr'⟩ := hcommit _ _ _ _ hQ hk hc
      have hreply : (jobReply pid env .commit v).1 = .ok () ∧ (jobReply pid env .commit v).2.stores = s' := by
        simp [jobReply, hc]
      refine always_job hv (by rw [hreply.2]; exact hi') ?_ fun hf e u hu => ?_
      · have hend : inv (jobReply pid env .commit v).2.stores ∧
            R (.ok a) (jobReply pid env .commit v).2.stores := by
          rw [hreply.2]
          exact ⟨hi', hr'⟩
        rw [hreply.1]
        exact ⟨hend.1, hend⟩
      · have hu : inv u.stores ∧ ∀ e', R (.error e') u.stores := by
          rcases hu with rfl | rfl
          · exact ⟨hv, fun e' => hfault hf _ _ _ hQ (Or.inl rfl)⟩
          · rw [hreply.2]
            exact ⟨hi', fun e' => hfault hf _ _ _ hQ (Or.inr ⟨a, _, hk, hc⟩)⟩
        exact ⟨hu.1, hcatch u e hu.1 (hu.2 e) fun _ e' => hu.2 e'⟩

end LegalRag
