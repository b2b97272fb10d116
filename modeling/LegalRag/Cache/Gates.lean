import LegalRag.Cache.WindowSafe
import LegalRag.Calls.Projection
import LegalRag.Db.Documents

/-!
# The rate limits of the routes

Two routes depend on `rate_limit(..)`, each with a bucket of its own.  All their calls go to one Redis, in
any order (`rateGate`).

* `rate_gate_independent`: to one user and route the others do not exist; the calls run as in the limiter
of that user and route alone, with the same results;
* `rate_gate_safe`: if no two pipelines read the same time and they run in the order of their times, no
user is let through a route more often than its limit in any window, whatever else fails.
-/

namespace LegalRag

open Calls Redis Service

/-- The arguments of `rate_limit`. -/
structure RateRule where
  bucket : String
  limit : Nat
  windowS : Nat
  deriving DecidableEq, Repr

/-- The routes that depend on `rate_limit`. -/
inductive RatedRoute where
  | chatStream
  | uploadFiles
  deriving DecidableEq, Repr

/-- The rule of a route. -/
def RatedRoute.rule : RatedRoute → RateRule
  | .chatStream => ⟨"chat", 60, 60⟩
  | .uploadFiles => ⟨"upload", 10, 60⟩

/-- A request to such a route, by a user that `current_user` has accepted. -/
structure RatedCall where
  userId : Uuid
  route : RatedRoute
  call : RateCall
  deriving DecidableEq, Repr

/-- The key of a user and a route. -/
def RatedRoute.key (g : RatedRoute) (userId : Uuid) : String := rlKey g.rule.bucket (toString userId)

/-- The calls of `allow_request` that the dependencies make. -/
def rateGate : Service RateCalls RateErr RateStore RatedCall RateEnv (Bool × Nat) where
  program r := allowRequest (toString r.userId) r.route.rule.bucket r.route.rule.limit r.route.rule.windowS
    r.call.now r.call.hex
  enter _ w := w
  handle _ r := rateHandler r.call
  env := RateEnv.step

abbrev GateState := Service.State RateCalls RateErr RateStore RatedCall (Bool × Nat)

abbrev GateLabel := Service.Label RateErr RatedCall RateEnv

/-- The limiter of one user and route. -/
abbrev limiterOf (u : Uuid) (g : RatedRoute) :
    Service RateCalls RateErr RateStore RateCall RateEnv (Bool × Nat) :=
  rateLimiter (toString u) g.rule.bucket g.rule.limit g.rule.windowS

/-! ### The keys -/

/-- Two users or two routes have different keys. -/
private theorem ratedKey_inj {g g' : RatedRoute} {u u' : Uuid} (h : g.key u = g'.key u') :
    g = g' ∧ u = u' := by
  cases g <;> cases g'
  · exact ⟨rfl, uuid_str_inj (String.append_right_inj _ |>.mp h)⟩
  · simp [RatedRoute.key, rlKey, RatedRoute.rule, ← String.toList_inj] at h
  · simp [RatedRoute.key, rlKey, RatedRoute.rule, ← String.toList_inj] at h
  · exact ⟨rfl, uuid_str_inj (String.append_right_inj _ |>.mp h)⟩

/-- The keys that a round trip names are all `key`. -/
def RateCmd.On (key : String) : RateCmd → Prop
  | .zremrangebyscore k .. | .zcard k | .zadd k .. | .expire k _ => k = key

/-- A round trip on one key. -/
def RateOp.On (key : String) : RateOp → Prop
  | .pipeline cmds => ∀ c ∈ cmds, c.On key
  | .zrange k | .zremrangebyscore k .. => k = key

private theorem allowRequest_only (userId bucket : String) (limit windowS : Nat) (c : RateCall) :
    (allowRequest userId bucket limit windowS c.now c.hex).Only (RateOp.On (rlKey bucket userId)) := by
  refine Prog.only_bind (Prog.only_perform ?_) fun replies => ?_
  · simp [RateOp.On, RateCmd.On]
  · show Prog.Only _ (if limit ≤ replies.getD 1 0 then _ else _)
    split
    · exact Prog.only_bind (Prog.only_perform rfl) fun oldest =>
        Prog.only_bind (Prog.only_perform rfl) fun _ => Prog.only_done _
    · exact Prog.only_done _

/-- The stores agree on a key; if the pipelines run in `order`, one is no further in time. -/
structure SameKey (order : Prop) (key : String) (w v : RateStore) : Prop where
  key : v.keys key = w.keys key
  times : order → v.clock ≤ w.clock ∧ v.expiry ≤ w.expiry

/-- A command on one key gives the same reply where the stores agree on it, and lets them agree. -/
private theorem RateCmd.exec_same {key : String} {c : RateCmd} (hc : c.On key) {w v : RateStore}
    (h : v.keys key = w.keys key) (hclock : v.clock = w.clock) :
    (c.exec v).1 = (c.exec w).1 ∧ (c.exec v).2.keys key = (c.exec w).2.keys key := by
  cases c <;> obtain rfl := hc <;> simp [RateCmd.exec, RateStore.update, h, hclock]

/-- A command on another key. -/
private theorem RateCmd.exec_other {key k : String} {c : RateCmd} (hc : c.On k) (hk : key ≠ k)
    (w : RateStore) : (c.exec w).2.keys key = w.keys key := by
  cases c <;> obtain rfl := hc <;> simp [RateCmd.exec, RateStore.update, hk]

private theorem RateCmd.exec_times (c : RateCmd) (w : RateStore) :
    (c.exec w).2.clock = w.clock ∧ (c.exec w).2.expiry = w.expiry := by
  cases c <;> exact ⟨rfl, rfl⟩

private theorem execAll_times (cmds : List RateCmd) (w : RateStore) :
    (execAll cmds w).2.clock = w.clock ∧ (execAll cmds w).2.expiry = w.expiry := by
  induction cmds generalizing w with
  | nil => exact ⟨rfl, rfl⟩
  | cons c cs ih =>
    obtain ⟨hclock, hexpiry⟩ := c.exec_times w
    obtain ⟨hclocks, hexpiries⟩ := ih (c.exec w).2
    exact ⟨hclocks.trans hclock, hexpiries.trans hexpiry⟩

private theorem execAll_same {key : String} {cmds : List RateCmd} (hcmds : ∀ c ∈ cmds, c.On key)
    {w v : RateStore} (h : v.keys key = w.keys key) (hclock : v.clock = w.clock) :
    (execAll cmds v).1 = (execAll cmds w).1 ∧ (execAll cmds v).2.keys key = (execAll cmds w).2.keys key := by
  induction cmds generalizing w v with
  | nil => exact ⟨rfl, h⟩
  | cons c cs ih =>
    obtain ⟨hreply, hkey⟩ := RateCmd.exec_same (hcmds c (List.mem_cons_self ..)) h hclock
    have hclocks : (c.exec v).2.clock = (c.exec w).2.clock := by
      rw [(c.exec_times v).1, (c.exec_times w).1, hclock]
    obtain ⟨hreplies, hkeys⟩ := ih (fun d hd => hcmds d (List.mem_cons_of_mem c hd)) hkey hclocks
    refine ⟨?_, hkeys⟩
    simp only [execAll, hreply, hreplies]

private theorem execAll_other {key k : String} {cmds : List RateCmd} (hcmds : ∀ c ∈ cmds, c.On k)
    (hk : key ≠ k) (w : RateStore) : (execAll cmds w).2.keys key = w.keys key := by
  induction cmds generalizing w with
  | nil => rfl
  | cons c cs ih =>
    have hkey := RateCmd.exec_other (hcmds c (List.mem_cons_self ..)) hk w
    exact (ih (fun d hd => hcmds d (List.mem_cons_of_mem c hd)) (c.exec w).2).trans hkey

/-- A pipeline moves the clock to the time its call has read; nothing else moves it. -/
private theorem rateHandler_times (c : RateCall) (o : RateOp) (w : RateStore) :
    (rateHandler c o w).2.expiry = w.expiry ∧
      ((∃ cmds, o = .pipeline cmds) ∧ (rateHandler c o w).2.clock = c.now ∨
        (∀ cmds, o ≠ .pipeline cmds) ∧ (rateHandler c o w).2.clock = w.clock) := by
  cases o with
  | pipeline cmds =>
    obtain ⟨hclock, hexpiry⟩ := execAll_times cmds { w with clock := c.now }
    exact ⟨hexpiry, Or.inl ⟨⟨cmds, rfl⟩, hclock⟩⟩
  | zrange k => exact ⟨rfl, Or.inr ⟨nofun, rfl⟩⟩
  | zremrangebyscore k lo hi => exact ⟨rfl, Or.inr ⟨nofun, rfl⟩⟩

/-- A round trip on the key. -/
private theorem rateHandler_same {order : Prop} {key : String} (c : RateCall) {o : RateOp} (ho : o.On key)
    {w v : RateStore} (h : SameKey order key w v) :
    (rateHandler c o v).1 = (rateHandler c o w).1 ∧
      SameKey order key (rateHandler c o w).2 (rateHandler c o v).2 := by
  have hkeys : (rateHandler c o v).1 = (rateHandler c o w).1 ∧
      (rateHandler c o v).2.keys key = (rateHandler c o w).2.keys key := by
    cases o with
    | pipeline cmds =>
      obtain ⟨hreply, hkey⟩ :=
        execAll_same (w := { w with clock := c.now }) (v := { v with clock := c.now }) ho h.key rfl
      exact ⟨congrArg Except.ok hreply, hkey⟩
    | zrange k =>
      obtain rfl : k = key := ho
      refine ⟨?_, h.key⟩
      simp only [rateHandler, h.key]
    | zremrangebyscore k lo hi =>
      obtain rfl : k = key := ho
      refine ⟨?_, ?_⟩
      · simp only [rateHandler, RateCmd.exec, h.key]
      · simp only [rateHandler, RateCmd.exec, RateStore.update, Function.update_self, h.key]
  refine ⟨hkeys.1, hkeys.2, fun hord => ?_⟩
  obtain ⟨hle, hle'⟩ := h.times hord
  obtain ⟨hv, hv'⟩ := rateHandler_times c o v
  obtain ⟨hw, hw'⟩ := rateHandler_times c o w
  rw [hv, hw]
  refine ⟨?_, hle'⟩
  rcases hv' with ⟨⟨cmds, rfl⟩, hv'⟩ | ⟨hno, hv'⟩
  · rcases hw' with ⟨-, hw'⟩ | ⟨hno, -⟩
    · exact le_of_eq (hv'.trans hw'.symm)
    · exact absurd rfl (hno cmds)
  · rcases hw' with ⟨⟨cmds, rfl⟩, -⟩ | ⟨-, hw'⟩
    · exact absurd rfl (hno cmds)
    · rw [hv', hw']
      exact hle

/-- A round trip on another key. -/
private theorem rateHandler_other {key k : String} (c : RateCall) {o : RateOp} (ho : o.On k) (hk : key ≠ k)
    (w : RateStore) : (rateHandler c o w).2.keys key = w.keys key := by
  cases o with
  | pipeline cmds => exact execAll_other ho hk { w with clock := c.now }
  | zrange k' => rfl
  | zremrangebyscore k' lo hi =>
    have hne : key ≠ k' := fun heq => hk (heq.trans ho)
    simp only [rateHandler, RateCmd.exec, RateStore.update, Function.update_of_ne hne]

/-! ### One user and route -/

/-- The call of a request, if it is by this user to this route. -/
def RatedCall.of (u : Uuid) (g : RatedRoute) (r : RatedCall) : Option RateCall :=
  if r.userId = u ∧ r.route = g then some r.call else none

/-- The end of the lifetime of the key of this user and route. -/
def RateEnv.of (u : Uuid) (g : RatedRoute) : RateEnv → Option RateEnv
  | .expire key => if key = g.key u then some (.expire key) else none

private theorem RatedCall.of_eq_some {u : Uuid} {g : RatedRoute} {r : RatedCall} {c : RateCall}
    (h : r.of u g = some c) : r = ⟨u, g, c⟩ := by
  unfold RatedCall.of at h
  split at h
  · rename_i hr
    obtain ⟨rfl, rfl⟩ := hr
    obtain rfl := Option.some.inj h
    rfl
  · cases h

private theorem RatedCall.key_ne {u : Uuid} {g : RatedRoute} {r : RatedCall} (h : r.of u g = none) :
    g.key u ≠ r.route.key r.userId := by
  intro heq
  obtain ⟨rfl, rfl⟩ := ratedKey_inj heq
  simp [RatedCall.of] at h

/-- The steps of this user and route. -/
def stepsOf (u : Uuid) (g : RatedRoute) (ls : List GateLabel) : List RateLabel :=
  rateGate.viewed (sees (RatedCall.of u g) (RateEnv.of u g)) (idle RateStore.init) ls

/-- The processes of this user and route, as the limiter has them. -/
def ratedCalls (u : Uuid) (g : RatedRoute) (s : GateState) (pid : Nat) :
    Option (Proc RateCalls RateErr RateCall (Bool × Nat)) :=
  (s.procs pid).bind (Proc.as (RatedCall.of u g))

/-- The call that a step runs the pipeline of. -/
def gatePipeline (s : GateState) : GateLabel → Option RateCall
  | .call pid _ =>
    match s.procs pid with
    | some ⟨r, .call (.pipeline _) _⟩ => some r.call
    | _ => none
  | _ => none

/-- Every round trip of a request is on its own key. -/
abbrev OwnKeys (s : GateState) : Prop := s.Bounded fun r => RateOp.On (r.route.key r.userId)

private theorem rateGate_only (r : RatedCall) :
    (rateGate.program r).Only (RateOp.On (r.route.key r.userId)) :=
  allowRequest_only _ _ _ _ _

/-- The pipelines run in the order of their times. -/
def GateOrder (s : GateState) (l : GateLabel) : Prop := ∀ c ∈ gatePipeline s l, s.world.clock ≤ c.now

/-- The limiter of a user and route, alone and among the others. -/
private theorem rateGate_projects (order : Prop) (u : Uuid) (g : RatedRoute) :
    Projects rateGate (limiterOf u g) (RatedCall.of u g) (RateEnv.of u g) OwnKeys
      (fun s l => order → GateOrder s l) (SameKey order (g.key u)) where
  program r c hr := by
    obtain rfl := RatedCall.of_eq_some hr
    rfl
  enter pid w v h := ⟨h, h⟩
  own s v pid r c o k hi hp hr h := by
    obtain rfl := RatedCall.of_eq_some hr
    exact rateHandler_same c (hi pid _ hp).1 h
  other s v pid out r o k hi hc hp hr h := by
    have hon : o.On (r.route.key r.userId) := (hi pid _ hp).1
    have hkey := rateHandler_other r.call hon (RatedCall.key_ne hr) s.world
    obtain ⟨hexpiry, hclock⟩ := rateHandler_times r.call o s.world
    refine ⟨h.key.trans hkey.symm, fun hord => ?_⟩
    obtain ⟨hle, hle'⟩ := h.times hord
    refine ⟨?_, le_of_le_of_eq hle' hexpiry.symm⟩
    rcases hclock with ⟨⟨cmds, rfl⟩, hclock⟩ | ⟨-, hclock⟩
    · have hlater : s.world.clock ≤ r.call.now := hc hord r.call (by simp [gatePipeline, hp])
      exact le_of_le_of_eq (hle.trans hlater) hclock.symm
    · exact le_of_le_of_eq hle hclock.symm
  envOwn e e' w w' v hw he h := by
    obtain ⟨key⟩ := e
    simp only [RateEnv.of] at he
    split at he
    · rename_i hkey
      obtain rfl := hkey
      obtain rfl := Option.some.inj he
      obtain ⟨d, hd, rfl⟩ := Option.map_eq_some_iff.mp hw
      refine ⟨_, Option.map_eq_some_iff.mpr ⟨d, ?_, rfl⟩, ?_, fun hord => ?_⟩
      · rw [h.key]
        exact hd
      · simp only [RateStore.update, Function.update_self]
      · exact ⟨(h.times hord).1, max_le_max (h.times hord).2 (le_refl d)⟩
    · cases he
  envOther e w w' v hw he h := by
    obtain ⟨key⟩ := e
    simp only [RateEnv.of] at he
    split at he
    · cases he
    · rename_i hkey
      obtain ⟨d, hd, rfl⟩ := Option.map_eq_some_iff.mp hw
      refine ⟨?_, fun hord => ⟨(h.times hord).1, le_max_of_le_left (h.times hord).2⟩⟩
      rw [h.key]
      simp only [RateStore.update, Function.update_of_ne (Ne.symm hkey)]

private theorem ownKeys_step {s s' : GateState} {l : GateLabel} (h : OwnKeys s)
    (hs : rateGate.step s l = some s') : OwnKeys s' :=
  State.Bounded.step rateGate_only h hs

/-- To a user and a route the calls of the others do not exist: what its own calls do is a run of its own
limiter, at the end of which each has come as far and returned the same, and the key is the same. -/
theorem rate_gate_independent (u : Uuid) (g : RatedRoute) {ls : List GateLabel} {s : GateState}
    (hr : rateGate.run (idle RateStore.init) ls = some s) :
    ∃ t, (limiterOf u g).run (idle RateStore.init) (stepsOf u g ls) = some t ∧
      t.procs = ratedCalls u g s ∧ t.world.keys (g.key u) = s.world.keys (g.key u) := by
  have hsame : SameKey False (g.key u) RateStore.init RateStore.init := ⟨rfl, fun h => h.elim⟩
  have hmeets : rateGate.Meets (fun s l => False → GateOrder s l) (idle RateStore.init) ls :=
    (meets_true _ _).imp fun _ _ _ h => h.elim
  obtain ⟨-, t, ht, hR⟩ := (rateGate_projects False u g).run (D := fun _ _ => True)
    (fun _ _ _ => ownKeys_step) (fun _ _ _ _ _ _ _ _ => trivial) (following_idle _ _ _) hmeets
    (seenAs_idle hsame) hr
  exact ⟨t, ht, funext hR.procs, hR.part.key⟩

/-- Two users and two routes, their calls interleaved. -/
def mixedGateRun : List GateLabel :=
  [.start 0 ⟨1, .chatStream, ⟨100, 0⟩⟩, .start 1 ⟨2, .chatStream, ⟨101, 1⟩⟩,
    .start 2 ⟨1, .uploadFiles, ⟨102, 2⟩⟩, .call 0 .ok, .call 1 .ok, .call 2 .ok]

theorem rate_gate_independent_mixed :
    ∃ s t, rateGate.run (idle RateStore.init) mixedGateRun = some s ∧
      (limiterOf 1 .chatStream).run (idle RateStore.init) (stepsOf 1 .chatStream mixedGateRun) = some t ∧
      t.procs = ratedCalls 1 .chatStream s := by
  obtain ⟨s, hs⟩ : ∃ s, rateGate.run (idle RateStore.init) mixedGateRun = some s :=
    Option.isSome_iff_exists.mp (by decide +kernel)
  obtain ⟨t, ht, hprocs, -⟩ := rate_gate_independent 1 .chatStream hs
  exact ⟨s, t, hs, ht, hprocs⟩

/-! ### Strict order -/

section Strict

variable {userId bucket : String} {limit windowS : Nat}

/-- Only the client fails; the pipelines run in strict order, and no key has vanished before its time. -/
def StrictOrder (s : RateState) (l : RateLabel) : Prop :=
  ClientErrors l ∧ ∀ c ∈ pipelineOf s l, s.world.clock < c.now ∧ s.world.expiry ≤ c.now

/-- The invariant of the runs in strict order: no rejected call has the time of an allowed one. -/
structure StrictInv (userId bucket : String) (limit windowS : Nat) (s : RateState) : Prop where
  window : WindowInv userId bucket limit windowS s
  allowed : ∀ q d, granted s q = some d → d.now ≤ s.world.clock
  rejected : ∀ q d, RejectedIn userId bucket windowS s q d → d.now ≤ s.world.clock
  apart : ∀ q d q' d', granted s q = some d → RejectedIn userId bucket windowS s q' d' → d.now ≠ d'.now

private theorem rejectedIn_of_rollback {s : RateState} {l : RateLabel} {c : RateCall}
    (hst : AtStages userId bucket limit windowS s) (h : rollbackOf s l = some c) :
    ∃ pid, RejectedIn userId bucket windowS s pid c := by
  cases l with
  | call pid out =>
    simp only [rollbackOf] at h
    split at h
    · rename_i d key lo hi k hp
      obtain rfl := Option.some.inj h
      refine ⟨pid, _, hp, ?_⟩
      rcases hst pid d _ hp with h | h | h | ⟨r, h⟩
      · rw [allowRequest_eq] at h
        cases h
      · unfold reading at h
        cases h
      · exact Or.inr (Or.inl h)
      · cases h
    · cases h
  | start pid r => cases h
  | env e => cases h

/-- In strict order a rollback meets no entry of an allowed call. -/
private theorem StrictInv.ownRollback {s : RateState} {l : RateLabel}
    (hi : StrictInv userId bucket limit windowS s) (hc : StrictOrder s l) : OwnRollback windowS s l := by
  refine ⟨fun c hp => ⟨(hc.2 c hp).2, fun q d hd hmember => ?_⟩, fun c hr q d hd _ => ?_⟩
  · have hle := hi.allowed q d hd
    have hnow : d.now = c.now := congrArg RateMember.now hmember
    exact absurd (hc.2 c hp).1 (not_lt.mpr (hnow ▸ hle))
  · obtain ⟨pid, hrej⟩ := rejectedIn_of_rollback hi.window.1 hr
    exact hi.apart q d pid c hd hrej

private theorem StrictInv.step {s s' : RateState} {l : RateLabel}
    (hi : StrictInv userId bucket limit windowS s) (hc : StrictOrder s l)
    (h : (rateLimiter userId bucket limit windowS).step s l = some s') :
    StrictInv userId bucket limit windowS s' := by
  have horder : InOrder s l := fun c hp => le_of_lt (hc.2 c hp).1
  have hwindow := hi.window.step ⟨hc.1, horder, hi.ownRollback hc⟩ h
  obtain ⟨-, heff⟩ := rate_step hi.window.1 hc.1 h
  cases heff with
  | quiet hworld hgr hrej =>
    refine ⟨hwindow, ?_, ?_, ?_⟩
    · rw [hgr, hworld]
      exact hi.allowed
    · rw [hworld]
      exact fun q d hd => hi.rejected q d (hrej q d hd)
    · rw [hgr]
      exact fun q d q' d' hd hd' => hi.apart q d q' d' hd (hrej q' d' hd')
  | pipeline pid c hp hkey htimes hgr hrej =>
    have hlt := (hc.2 c hp).1
    have hallowed : ∀ q d, granted s' q = some d → d = c ∨ granted s q = some d := by
      intro q d hd
      rcases hgr with hgr | ⟨-, hgr, -⟩
      · exact Or.inr (hgr ▸ hd)
      · rw [hgr, Function.update_apply] at hd
        split at hd
        · exact Or.inl (Option.some.inj hd).symm
        · exact Or.inr hd
    refine ⟨hwindow, fun q d hd => ?_, fun q d hd => ?_, fun q d q' d' hd hd' => ?_⟩
    · rw [htimes.1]
      rcases hallowed q d hd with rfl | hd
      · exact le_refl _
      · exact le_of_lt (lt_of_le_of_lt (hi.allowed q d hd) hlt)
    · rw [htimes.1]
      rcases hrej q d hd with hd | ⟨rfl, -⟩
      · exact le_of_lt (lt_of_le_of_lt (hi.rejected q d hd) hlt)
      · exact le_refl _
    · -- one of the two is new, and then later than the other; a new call is allowed or rejected, not both
      rcases hrej q' d' hd' with hold' | ⟨rfl, hfull⟩
      · rcases hallowed q d hd with rfl | hold
        · exact (lt_of_le_of_lt (hi.rejected q' d' hold') hlt).ne'
        · exact hi.apart q d q' d' hold hold'
      · rcases hgr with hgr | ⟨-, hgr, hcount⟩
        · rw [hgr] at hd
          exact (lt_of_le_of_lt (hi.allowed q d hd) hlt).ne
        · exact absurd hcount (Nat.not_lt.mpr hfull)
  | rollback c hp hkey htimes hgr hrej =>
    refine ⟨hwindow, ?_, ?_, ?_⟩
    · rw [hgr, htimes.1]
      exact hi.allowed
    · rw [htimes.1]
      exact fun q d hd => hi.rejected q d (hrej q d hd)
    · rw [hgr]
      exact fun q d q' d' hd hd' => hi.apart q d q' d' hd (hrej q' d' hd')
  | expire d hkey htimes hgr hrej =>
    refine ⟨hwindow, ?_, ?_, ?_⟩
    · rw [hgr, htimes.1]
      exact hi.allowed
    · rw [htimes.1]
      exact fun q d hd => hi.rejected q d (hrej q d hd)
    · rw [hgr]
      exact fun q d q' d' hd hd' => hi.apart q d q' d' hd (hrej q' d' hd')

private theorem strictInv_init : StrictInv userId bucket limit windowS (idle RateStore.init) where
  window := windowInv_init
  allowed q d hd := by cases hd
  rejected q d hd := by
    obtain ⟨p, hp, -⟩ := hd
    cases hp
  apart q d q' d' hd := by cases hd

end Strict

/-- Only the client fails. -/
def GateErrors : GateLabel → Prop
  | .call _ out => ClientError out
  | _ => True

instance : DecidablePred GateErrors
  | .call _ out => inferInstanceAs (Decidable (ClientError out))
  | .start .. | .env _ => isTrue trivial

/-- Only the client fails; the pipelines run in strict order, and no key has vanished before its time. -/
def GateStrict (s : GateState) (l : GateLabel) : Prop :=
  GateErrors l ∧ ∀ c ∈ gatePipeline s l, s.world.clock < c.now ∧ s.world.expiry ≤ c.now

instance (s : GateState) (l : GateLabel) : Decidable (GateStrict s l) :=
  inferInstanceAs (Decidable (_ ∧ ∀ c ∈ gatePipeline s l, _))

/-- The requests of a user that a route has let through. -/
def letThrough (u : Uuid) (g : RatedRoute) (s : GateState) (pid : Nat) : Option RateCall :=
  allowedCall (ratedCalls u g s pid)

/-- What the limiter of a user and route takes of a run in strict order is in strict order. -/
private theorem strictOrder_of_gateStrict {u : Uuid} {g : RatedRoute} {s : GateState} {t : RateState}
    {l : GateLabel} {m : RateLabel} (hc : GateStrict s l)
    (hR : SeenAs (RatedCall.of u g) (SameKey True (g.key u)) s t)
    (hm : sees (RatedCall.of u g) (RateEnv.of u g) s l = some m) : StrictOrder t m := by
  obtain ⟨hclock, hexpiry⟩ := hR.part.times trivial
  cases l with
  | start pid r =>
    obtain ⟨c, -, rfl⟩ := Option.map_eq_some_iff.mp hm
    exact ⟨trivial, nofun⟩
  | env e =>
    obtain ⟨e', -, rfl⟩ := Option.map_eq_some_iff.mp hm
    exact ⟨trivial, nofun⟩
  | call pid out =>
    obtain ⟨p, hp, rfl⟩ := Option.map_eq_some_iff.mp hm
    refine ⟨hc.1, fun c hpipe => ?_⟩
    obtain ⟨⟨r, prog⟩, hproc, hp⟩ := Option.bind_eq_some_iff.mp hp
    obtain ⟨d, hd, rfl⟩ := Option.map_eq_some_iff.mp hp
    have htproc : t.procs pid = some ⟨d, prog⟩ := by
      rw [hR.procs, hproc]
      simp [Proc.as, hd]
    obtain rfl := RatedCall.of_eq_some hd
    have hgate : gatePipeline s (.call pid out) = some c := by
      simp only [pipelineOf, htproc, Option.mem_def] at hpipe
      simp only [gatePipeline, hproc]
      split at hpipe
      · rename_i hsome
        cases hsome
        exact hpipe
      · cases hpipe
    obtain ⟨hlt, hle⟩ := hc.2 c hgate
    exact ⟨lt_of_le_of_lt hclock hlt, hexpiry.trans hle⟩

/-- If no two pipelines read the same time and they run in the order of their times, then of the requests
of a user to a route at most as many as its limit are let through in any window, whatever the other users
do, and whichever round trips and processes fail. -/
theorem rate_gate_safe (u : Uuid) (g : RatedRoute) {ls : List GateLabel} {s : GateState}
    (hm : rateGate.Meets GateStrict (idle RateStore.init) ls)
    (hr : rateGate.run (idle RateStore.init) ls = some s) :
    WindowSafe g.rule.limit g.rule.windowS (letThrough u g s) := by
  have hsame : SameKey True (g.key u) RateStore.init RateStore.init := ⟨rfl, fun _ => ⟨le_refl _, le_refl _⟩⟩
  have hprojects : Projects rateGate (limiterOf u g) (RatedCall.of u g) (RateEnv.of u g) OwnKeys
      GateStrict (SameKey True (g.key u)) :=
    { rateGate_projects True u g with
      other := fun s v pid out r o k hi hc => (rateGate_projects True u g).other s v pid out r o k hi
        fun _ c hp => le_of_lt (hc.2 c hp).1 }
  obtain ⟨hmeets, t, ht, hR⟩ := hprojects.run (D := StrictOrder) (fun _ _ _ => ownKeys_step)
    (fun s t l m _ hc hR hs => strictOrder_of_gateStrict hc hR hs) (following_idle _ _ _) hm
    (seenAs_idle hsame) hr
  have hinv : StrictInv (toString u) g.rule.bucket g.rule.limit g.rule.windowS t :=
    run_induct (fun _ _ _ hi hc hs => hi.step hc hs) strictInv_init hmeets ht
  have hgranted : granted t = letThrough u g s := by
    funext pid
    show allowedCall (t.procs pid) = allowedCall _
    rw [hR.procs]
    rfl
  exact hgranted ▸ hinv.window.2.safe

theorem rate_gate_safe_mixed :
    ∃ s, rateGate.run (idle RateStore.init) mixedGateRun = some s ∧
      WindowSafe 60 60 (letThrough 2 .chatStream s) := by
  obtain ⟨s, hs⟩ : ∃ s, rateGate.run (idle RateStore.init) mixedGateRun = some s :=
    Option.isSome_iff_exists.mp (by decide +kernel)
  exact ⟨s, hs, rate_gate_safe 2 .chatStream (by decide +kernel) hs⟩

end LegalRag
