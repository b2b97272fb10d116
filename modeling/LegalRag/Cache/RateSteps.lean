import LegalRag.Cache.SlidingWindow

/-!
# What a step does to the window

`rate_step` says once what a step of the limiter does, seen from the key of the user and bucket: it writes
nothing, runs the pipeline of a call, rolls one back, or lets the key expire.  Which calls are allowed and
which are counted out changes only with a pipeline.
-/

namespace LegalRag

open Calls Redis Service

variable {userId bucket : String} {limit windowS : Nat}

/-! ### The processes of a state -/

/-- The call that a served request has been allowed. -/
def allowedCall : Option (Proc RateCalls RateErr RateCall (Bool × Nat)) → Option RateCall
  | some ⟨c, .done (.ok _)⟩ => some c
  | _ => none

private theorem granted_eq (s : RateState) : granted s = fun pid => allowedCall (s.procs pid) := rfl

private theorem allowedCall_of_allowed {c : RateCall} {p : Prog RateCalls RateErr (Bool × Nat)}
    (h : Allowed p) : allowedCall (some ⟨c, p⟩) = some c := by
  obtain ⟨r, rfl⟩ := h
  rfl

private theorem allowedCall_of_not_allowed {c : RateCall} {p : Prog RateCalls RateErr (Bool × Nat)}
    (h : ¬ Allowed p) : allowedCall (some ⟨c, p⟩) = none := by
  rcases p with (e | r) | ⟨o, k⟩
  · rfl
  · exact absurd ⟨r, rfl⟩ h
  · rfl

private theorem granted_set (s : RateState) (w : RateStore) (pid : Nat)
    (p : Option (Proc RateCalls RateErr RateCall (Bool × Nat))) :
    granted (s.set w pid p) = Function.update (granted s) pid (allowedCall p) := by
  funext q
  by_cases h : q = pid
  · subst h
    simp [granted_eq]
  · simp [granted_eq, State.set_procs_of_ne s w p h, h]

/-- A process that is not allowed a call leaves the allowed calls as they were. -/
private theorem granted_set_of_none {s : RateState} {pid : Nat} (h : granted s pid = none) (w : RateStore)
    {p : Option (Proc RateCalls RateErr RateCall (Bool × Nat))} (hp : allowedCall p = none) :
    granted (s.set w pid p) = granted s := by
  rw [granted_set, hp, Function.update_eq_self_iff]
  exact h.symm

theorem granted_lt {s : RateState} {n : Nat} (hs : s.Below n) {q : Nat} {d : RateCall}
    (h : granted s q = some d) : q < n := by
  by_contra hq
  simp [granted_eq, hs q (not_lt.mp hq), allowedCall] at h

/-- Every process is at a stage of its call. -/
def AtStages (userId bucket : String) (limit windowS : Nat) (s : RateState) : Prop :=
  ∀ pid c p, s.procs pid = some ⟨c, p⟩ → Stage userId bucket limit windowS c p

private theorem AtStages.set {s : RateState} (h : AtStages userId bucket limit windowS s)
    {w : RateStore} {pid : Nat} {p : Option (Proc RateCalls RateErr RateCall (Bool × Nat))}
    (hp : ∀ c q, p = some ⟨c, q⟩ → Stage userId bucket limit windowS c q) :
    AtStages userId bucket limit windowS (s.set w pid p) := by
  intro q c p' hq
  by_cases he : q = pid
  · subst he
    rw [State.set_procs_self] at hq
    exact hp c p' hq
  · rw [State.set_procs_of_ne s w p he] at hq
    exact h q c p' hq

/-- What process `pid` becomes after a round trip. -/
def resumed {β : Type} (c : RateCall) (k : β → Prog RateCalls RateErr (Bool × Nat)) (r : Option β) :
    Option (Proc RateCalls RateErr RateCall (Bool × Nat)) := r.map fun r => ⟨c, k r⟩

private theorem resume_eq (s : RateState) (w : RateStore) (pid : Nat) (c : RateCall) {β : Type}
    (k : β → Prog RateCalls RateErr (Bool × Nat)) (r : Option β) :
    resume s w pid c k r = s.set w pid (resumed c k r) := by
  cases r <;> rfl

private theorem allowedCall_resumed {c : RateCall} {β : Type} {k : β → Prog RateCalls RateErr (Bool × Nat)}
    {r : Option β} (h : ∀ x, r = some x → ¬ Allowed (k x)) : allowedCall (resumed c k r) = none := by
  cases r with
  | none => rfl
  | some x => exact allowedCall_of_not_allowed (h x rfl)

private theorem not_allowed_call (o : RateOp)
    (k : Except RateErr (RateCalls.Resp o) → Prog RateCalls RateErr (Bool × Nat)) :
    ¬ Allowed (.call o k) := by
  rintro ⟨r, hr⟩
  cases hr

/-- A round trip of process `pid` changes only the store and that process, which stays at a stage of its
call. -/
private theorem AtStages.call {s : RateState} (h : AtStages userId bucket limit windowS s) {pid : Nat}
    {c : RateCall} {o : RateOp} {k : Except RateErr (RateCalls.Resp o) →
    Prog RateCalls RateErr (Bool × Nat)} (hp : s.procs pid = some ⟨c, .call o k⟩) {out : Outcome RateErr}
    (hout : ClientError out) (w : RateStore) :
    AtStages userId bucket limit windowS
      (s.set w pid (resumed c k (out.reply (rateHandler c) o s.world))) := by
  refine h.set fun d q hq => ?_
  simp only [resumed, Option.map_eq_some_iff] at hq
  obtain ⟨r, hr, hq⟩ := hq
  cases hq
  exact ((h pid c _ hp).next hout s.world).1 r hr

/-- The call of process `pid` is `c`, and has been counted out. -/
def RejectedIn (userId bucket : String) (windowS : Nat) (s : RateState) (pid : Nat) (c : RateCall) : Prop :=
  ∃ p, s.procs pid = some ⟨c, p⟩ ∧ Rejected userId bucket windowS c p

/-- What happens to process `pid` alone decides whether a new call is counted out. -/
private theorem RejectedIn.of_set {s : RateState} {w : RateStore} {pid : Nat}
    {p : Option (Proc RateCalls RateErr RateCall (Bool × Nat))} {q : Nat} {d : RateCall}
    (h : RejectedIn userId bucket windowS (s.set w pid p) q d) :
    RejectedIn userId bucket windowS s q d ∨
      q = pid ∧ ∃ p', p = some ⟨d, p'⟩ ∧ Rejected userId bucket windowS d p' := by
  obtain ⟨p', hp, hr⟩ := h
  by_cases he : q = pid
  · subst he
    rw [State.set_procs_self] at hp
    exact Or.inr ⟨rfl, p', hp, hr⟩
  · rw [State.set_procs_of_ne s w p he] at hp
    exact Or.inl ⟨p', hp, hr⟩

/-! ### What a step does to the key, the allowed calls and the rejected ones -/

/-- The call whose pipeline a step runs. -/
def pipelineOf (s : RateState) : RateLabel → Option RateCall
  | .call pid _ =>
    match s.procs pid with
    | some ⟨c, .call (.pipeline _) _⟩ => some c
    | _ => none
  | _ => none

/-- The call that a step rolls back. -/
def rollbackOf (s : RateState) : RateLabel → Option RateCall
  | .call pid _ =>
    match s.procs pid with
    | some ⟨c, .call (.zremrangebyscore ..) _⟩ => some c
    | _ => none
  | _ => none

/-- Only the Redis client fails. -/
def ClientErrors : RateLabel → Prop
  | .call _ out => ClientError out
  | _ => True

instance : DecidablePred ClientErrors
  | .call _ out => inferInstanceAs (Decidable (ClientError out))
  | .start .. | .env _ => isTrue trivial

/-- The effect of a step, from the point of view of the key. -/
inductive RateEffect (userId bucket : String) (limit windowS : Nat) (s s' : RateState) (l : RateLabel) : Prop
  /-- Nothing is written. -/
  | quiet (world : s'.world = s.world) (grants : granted s' = granted s)
      (rejects : ∀ q d, RejectedIn userId bucket windowS s' q d → RejectedIn userId bucket windowS s q d)
  /-- The pipeline of a call, which is allowed or counted out by what it counts. -/
  | pipeline (pid : Nat) (c : RateCall) (call : pipelineOf s l = some c)
      (key : s'.world.keys (rlKey bucket userId) = (s.world.keys (rlKey bucket userId)).after windowS c)
      (times : s'.world.clock = c.now ∧ s'.world.expiry = s.world.expiry)
      (grants : granted s' = granted s ∨ granted s pid = none ∧
        granted s' = Function.update (granted s) pid (some c) ∧
          (s.world.keys (rlKey bucket userId)).count windowS c < limit)
      (rejects : ∀ q d, RejectedIn userId bucket windowS s' q d → RejectedIn userId bucket windowS s q d ∨
        d = c ∧ limit ≤ (s.world.keys (rlKey bucket userId)).count windowS c)
  /-- The rollback of a rejected call. -/
  | rollback (c : RateCall) (call : rollbackOf s l = some c)
      (key : s'.world.keys (rlKey bucket userId) =
        ⟨(s.world.keys (rlKey bucket userId)).zset.zremrangebyscore c.now c.now,
          (s.world.keys (rlKey bucket userId)).deadline⟩)
      (times : s'.world.clock = s.world.clock ∧ s'.world.expiry = s.world.expiry)
      (grants : granted s' = granted s)
      (rejects : ∀ q d, RejectedIn userId bucket windowS s' q d → RejectedIn userId bucket windowS s q d)
  /-- A key expires. -/
  | expire (d : ℚ)
      (key : s'.world.keys (rlKey bucket userId) = s.world.keys (rlKey bucket userId) ∨
        (s.world.keys (rlKey bucket userId)).deadline = some d ∧
          s'.world.keys (rlKey bucket userId) = ⟨ZSet.empty, none⟩)
      (times : s'.world.clock = s.world.clock ∧ s'.world.expiry = max s.world.expiry d)
      (grants : granted s' = granted s)
      (rejects : ∀ q d, RejectedIn userId bucket windowS s' q d → RejectedIn userId bucket windowS s q d)

/-- A round trip that allows nothing and counts nothing out. -/
private theorem quiet_call {s : RateState} (w : RateStore) {pid : Nat} {c : RateCall} {o : RateOp}
    {k : Except RateErr (RateCalls.Resp o) → Prog RateCalls RateErr (Bool × Nat)}
    (hp : s.procs pid = some ⟨c, .call o k⟩) {r : Option (Except RateErr (RateCalls.Resp o))}
    (hk : ∀ x, r = some x → ¬ Allowed (k x) ∧
      (Rejected userId bucket windowS c (k x) → Rejected userId bucket windowS c (.call o k))) :
    granted (s.set w pid (resumed c k r)) = granted s ∧
      ∀ q d, RejectedIn userId bucket windowS (s.set w pid (resumed c k r)) q d →
        RejectedIn userId bucket windowS s q d := by
  have hg : granted s pid = none := by simp [granted_eq, hp, allowedCall]
  refine ⟨granted_set_of_none hg _ (allowedCall_resumed fun x hx => (hk x hx).1), fun q d h => ?_⟩
  rcases h.of_set with h | ⟨rfl, p', hp', hr⟩
  · exact h
  · simp only [resumed, Option.map_eq_some_iff] at hp'
    obtain ⟨x, hx, hp'⟩ := hp'
    cases hp'
    exact ⟨_, hp, (hk x hx).2 hr⟩

theorem rate_step {s s' : RateState} {l : RateLabel} (hst : AtStages userId bucket limit windowS s)
    (hl : ClientErrors l) (h : (rateLimiter userId bucket limit windowS).step s l = some s') :
    AtStages userId bucket limit windowS s' ∧ RateEffect userId bucket limit windowS s s' l := by
  rcases step_cases h with ⟨pid, c, rfl, hp, rfl⟩ | ⟨pid, out, c, o, k, rfl, hp, rfl⟩ | ⟨⟨key⟩, w,
    rfl, hw, rfl⟩
  · -- a new call, which has done nothing yet
    have hg : granted s pid = none := by simp [granted_eq, hp, allowedCall]
    refine ⟨hst.set fun d q hq => ?_, .quiet rfl (granted_set_of_none hg _ ?_) fun q d hr => ?_⟩
    · cases hq
      exact Or.inl rfl
    · exact allowedCall_of_not_allowed (not_allowed_call _ _)
    · rcases hr.of_set with hr | ⟨rfl, p', hp', hr⟩
      · exact hr
      · cases hp'
        simp [Rejected, rateLimiter, allowRequest_eq, reading, removing] at hr
  · have hnext := ((hst pid c _ hp).next hl s.world).2
    rw [resume_eq]
    refine ⟨hst.call hp hl _, ?_⟩
    rcases hnext with ⟨hworld, hk⟩ | ⟨⟨cmds, rfl⟩, hkey, htimes, hk⟩ | ⟨⟨key, lo, hi, rfl⟩, hkey, htimes, hk⟩
    · obtain ⟨hgr, hrej⟩ := quiet_call s.world hp hk
      exact .quiet hworld (hgr ▸ rfl) hrej
    · refine .pipeline pid c (by simp [pipelineOf, hp]) hkey htimes ?_ fun q d hr => ?_
      · have hg : granted s pid = none := by simp [granted_eq, hp, allowedCall]
        by_cases ha : ∃ x, out.reply (rateHandler c) (.pipeline cmds) s.world = some x ∧ Allowed (k x)
        · obtain ⟨x, hx, ha⟩ := ha
          refine Or.inr ⟨hg, ?_, (hk x hx).1 ha⟩
          rw [granted_set]
          exact congrArg _ ((congrArg (fun r => allowedCall (resumed c k r)) hx).trans
            (allowedCall_of_allowed ha))
        · refine Or.inl (granted_set_of_none hg _ (allowedCall_resumed fun x hx => ?_))
          exact fun hall => ha ⟨x, hx, hall⟩
      · rcases hr.of_set with hr | ⟨rfl, p', hp', hr⟩
        · exact Or.inl hr
        · simp only [resumed, Option.map_eq_some_iff] at hp'
          obtain ⟨x, hx, hp'⟩ := hp'
          cases hp'
          exact Or.inr ⟨rfl, (hk x hx).2 hr⟩
    · obtain ⟨hgr, hrej⟩ := quiet_call _ hp hk
      exact .rollback c (by simp [rollbackOf, hp]) hkey htimes hgr hrej
  · -- a key expires
    simp only [rateLimiter, RateEnv.step, Option.map_eq_some_iff] at hw
    obtain ⟨d, hd, rfl⟩ := hw
    refine ⟨hst, .expire d ?_ ⟨rfl, rfl⟩ rfl fun q d h => h⟩
    by_cases hkey : rlKey bucket userId = key
    · subst hkey
      exact Or.inr ⟨hd, by simp [RateStore.update]⟩
    · exact Or.inl (by simp [RateStore.update, hkey])

end LegalRag
