import LegalRag.Cache.RateLimit
import Mathlib.Tactic.Linarith

/-!
# What the sorted set says about the calls

`Stage` lists what can be left of a call, `Stage.next` what each of its round trips does to the key.
`Tracks` ties the sorted set to the calls that were allowed: those still inside the window have their
entry in the set.  It survives every event except a rollback (`ZREMRANGEBYSCORE now now`) that removes the
entry of an allowed call with the same clock value.
-/

namespace LegalRag

open Calls Redis Service

/-- A state of the service of one user and bucket. -/
abbrev RateState := Service.State RateCalls RateErr RateStore RateCall (Bool × Nat)

/-- A step of that service. -/
abbrev RateLabel := Service.Label RateErr RateCall RateEnv

/-! ### The stages of a call -/

/-- The four commands of the pipeline. -/
def rateCmds (key : String) (windowS : Nat) (c : RateCall) : List RateCmd :=
  [.zremrangebyscore key 0 (c.now - windowS), .zcard key, .zadd key c.member c.now, .expire key (windowS + 5)]

/-- What is left of a rejected call once the oldest entry is known. -/
def removing (key : String) (windowS : Nat) (now : ℚ) (oldest : List (Entry RateMember ℚ)) :
    Prog RateCalls RateErr (Bool × Nat) :=
  .call (.zremrangebyscore key now now) (Prog.cont fun _ =>
    .done (.error (.rateLimitExceeded (max (1 / 10) (retryAfter windowS now oldest)))))

/-- What is left of a rejected call after its pipeline. -/
def reading (key : String) (windowS : Nat) (now : ℚ) : Prog RateCalls RateErr (Bool × Nat) :=
  .call (.zrange key) (Prog.cont (removing key windowS now))

/-- What is left of a call after its pipeline. -/
def counted (key : String) (limit windowS : Nat) (now : ℚ) (count : Nat) :
    Prog RateCalls RateErr (Bool × Nat) :=
  if limit ≤ count then reading key windowS now else .done (.ok (true, limit - count - 1))

theorem allowRequest_eq (userId bucket : String) (limit windowS : Nat) (c : RateCall) :
    allowRequest userId bucket limit windowS c.now c.hex =
      .call (.pipeline (rateCmds (rlKey bucket userId) windowS c)) (Prog.cont fun replies =>
        counted (rlKey bucket userId) limit windowS c.now (replies.getD 1 0)) := by
  rfl

/-- What can be left of the program of a call. -/
def Stage (userId bucket : String) (limit windowS : Nat) (c : RateCall)
    (p : Prog RateCalls RateErr (Bool × Nat)) : Prop :=
  p = allowRequest userId bucket limit windowS c.now c.hex ∨
  p = reading (rlKey bucket userId) windowS c.now ∨
    (∃ oldest, p = removing (rlKey bucket userId) windowS c.now oldest) ∨ ∃ r, p = .done r

/-- The call has been counted out: it is about to raise `RateLimitExceeded`, or has. -/
def Rejected (userId bucket : String) (windowS : Nat) (c : RateCall)
    (p : Prog RateCalls RateErr (Bool × Nat)) : Prop :=
  p = reading (rlKey bucket userId) windowS c.now ∨
    (∃ oldest, p = removing (rlKey bucket userId) windowS c.now oldest) ∨
    ∃ r, p = .done (.error (.rateLimitExceeded r))

/-- The call has returned `(True, _)`. -/
def Allowed (p : Prog RateCalls RateErr (Bool × Nat)) : Prop := ∃ r, p = .done (.ok r)

/-- A round trip that fails raises an error of the client. -/
def ClientError : Outcome RateErr → Prop
  | .raised (.rateLimitExceeded _) _ => False
  | _ => True

instance : DecidablePred ClientError
  | .ok | .crashed _ | .raised (.redis _) _ => isTrue trivial
  | .raised (.rateLimitExceeded _) _ => isFalse id

private theorem ClientError.redis {e : RateErr} {applied : Bool} (h : ClientError (.raised e applied)) :
    ∃ msg, e = .redis msg := by
  cases e with
  | rateLimitExceeded r => exact h.elim
  | redis msg => exact ⟨msg, rfl⟩

/-- The key after the pipeline of the call `c`. -/
def RateKey.after (windowS : Nat) (c : RateCall) (k : RateKey) : RateKey :=
  ⟨(k.zset.zremrangebyscore 0 (c.now - windowS)).zadd c.member c.now, some (c.now + (windowS + 5))⟩

/-- How many entries the pipeline of the call `c` counts. -/
def RateKey.count (windowS : Nat) (c : RateCall) (k : RateKey) : Nat :=
  (k.zset.zremrangebyscore 0 (c.now - windowS)).zcard

theorem pipeline_reply (key : String) (windowS : Nat) (c : RateCall) (w : RateStore) :
    ∃ replies : List Nat, (rateHandler c (.pipeline (rateCmds key windowS c)) w).1 = .ok replies ∧
      replies.getD 1 0 = (w.keys key).count windowS c := by
  refine ⟨_, rfl, ?_⟩
  simp [execAll, rateCmds, RateCmd.exec, RateStore.update, RateKey.count]

theorem pipeline_key (key : String) (windowS : Nat) (c : RateCall) (w : RateStore) :
    (rateHandler c (.pipeline (rateCmds key windowS c)) w).2.keys key = (w.keys key).after windowS c := by
  simp [rateHandler, execAll, rateCmds, RateCmd.exec, RateStore.update, RateKey.after]

private theorem pipeline_times (key : String) (windowS : Nat) (c : RateCall) (w : RateStore) :
    (rateHandler c (.pipeline (rateCmds key windowS c)) w).2.clock = c.now ∧
      (rateHandler c (.pipeline (rateCmds key windowS c)) w).2.expiry = w.expiry := ⟨rfl, rfl⟩

theorem rollback_key (key : String) (c : RateCall) (w : RateStore) :
    (rateHandler c (.zremrangebyscore key c.now c.now) w).2.keys key =
      ⟨(w.keys key).zset.zremrangebyscore c.now c.now, (w.keys key).deadline⟩ := by
  simp [rateHandler, RateCmd.exec, RateStore.update]

private theorem rollback_times (key : String) (c : RateCall) (w : RateStore) :
    (rateHandler c (.zremrangebyscore key c.now c.now) w).2.clock = w.clock ∧
      (rateHandler c (.zremrangebyscore key c.now c.now) w).2.expiry = w.expiry := ⟨rfl, rfl⟩

/-- What one round trip of a call does: it leaves the key as it is, runs the pipeline, or removes entries
by score; a call is allowed or rejected by the count of its pipeline only. -/
theorem Stage.next {userId bucket : String} {limit windowS : Nat} {c : RateCall} {o : RateOp}
    {k : Except RateErr (RateCalls.Resp o) → Prog RateCalls RateErr (Bool × Nat)}
    (h : Stage userId bucket limit windowS c (.call o k)) {out : Outcome RateErr} (hout : ClientError out)
    (w : RateStore) :
    (∀ r, out.reply (rateHandler c) o w = some r → Stage userId bucket limit windowS c (k r)) ∧
    ((out.world (rateHandler c) o w = w ∧ ∀ r, out.reply (rateHandler c) o w = some r → ¬ Allowed (k r) ∧
        (Rejected userId bucket windowS c (k r) → Rejected userId bucket windowS c (.call o k))) ∨
      ((∃ cmds, o = .pipeline cmds) ∧
        (out.world (rateHandler c) o w).keys (rlKey bucket userId) =
          (w.keys (rlKey bucket userId)).after windowS c ∧
        ((out.world (rateHandler c) o w).clock = c.now ∧
          (out.world (rateHandler c) o w).expiry = w.expiry) ∧
        ∀ r, out.reply (rateHandler c) o w = some r →
          (Allowed (k r) → (w.keys (rlKey bucket userId)).count windowS c < limit) ∧
          (Rejected userId bucket windowS c (k r) →
            limit ≤ (w.keys (rlKey bucket userId)).count windowS c)) ∨
      ((∃ key lo hi, o = .zremrangebyscore key lo hi) ∧
        (out.world (rateHandler c) o w).keys (rlKey bucket userId) =
          ⟨(w.keys (rlKey bucket userId)).zset.zremrangebyscore c.now c.now,
            (w.keys (rlKey bucket userId)).deadline⟩ ∧
        ((out.world (rateHandler c) o w).clock = w.clock ∧
          (out.world (rateHandler c) o w).expiry = w.expiry) ∧
        ∀ r, out.reply (rateHandler c) o w = some r → ¬ Allowed (k r) ∧
          (Rejected userId bucket windowS c (k r) → Rejected userId bucket windowS c (.call o k)))) := by
  have hfail : ∀ msg, ¬ Allowed (.done (.error (.redis msg))) ∧
      ¬ Rejected userId bucket windowS c (.done (.error (.redis msg))) := by
    simp [Allowed, Rejected, reading, removing]
  rcases h with h | h | ⟨oldest, h⟩ | ⟨r, h⟩
  · -- the pipeline
    rw [allowRequest_eq] at h
    cases h
    obtain ⟨replies, hok, hcount⟩ := pipeline_reply (rlKey bucket userId) windowS c w
    have hkey := pipeline_key (rlKey bucket userId) windowS c w
    cases out with
    | ok =>
      simp only [Outcome.reply, hok, Option.some.injEq, forall_eq', Prog.cont_ok, hcount, Outcome.world]
      refine ⟨?_, Or.inr (Or.inl ⟨⟨_, rfl⟩, hkey, pipeline_times _ _ _ _, ?_, ?_⟩)⟩
      · unfold counted
        split
        · exact Or.inr (Or.inl rfl)
        · exact Or.inr (Or.inr (Or.inr ⟨_, rfl⟩))
      · rintro ⟨r, hr⟩
        unfold counted reading at hr
        split at hr
        · cases hr
        · omega
      · intro hr
        unfold counted at hr
        split at hr
        · assumption
        · simp [Rejected, reading, removing] at hr
    | raised e applied =>
      obtain ⟨msg, rfl⟩ := hout.redis
      simp only [Outcome.reply, Option.some.injEq, forall_eq', Prog.cont_error]
      refine ⟨Or.inr (Or.inr (Or.inr ⟨_, rfl⟩)), ?_⟩
      cases applied with
      | false => exact Or.inl ⟨rfl, (hfail msg).1, fun hr => absurd hr (hfail msg).2⟩
      | true =>
        exact Or.inr (Or.inl ⟨⟨_, rfl⟩, hkey, pipeline_times _ _ _ _, fun ha => absurd ha (hfail msg).1,
          fun hr => absurd hr (hfail msg).2⟩)
    | crashed applied =>
      refine ⟨by simp [Outcome.reply], ?_⟩
      cases applied with
      | false => exact Or.inl ⟨rfl, by simp [Outcome.reply]⟩
      | true => exact Or.inr (Or.inl ⟨⟨_, rfl⟩, hkey, pipeline_times _ _ _ _, by simp [Outcome.reply]⟩)
  · -- the oldest entry is read
    unfold reading at h
    cases h
    have hw : ∀ out : Outcome RateErr, out.world (rateHandler c) (.zrange (rlKey bucket userId)) w = w := by
      intro out
      rcases Outcome.world_eq (rateHandler c) (.zrange (rlKey bucket userId)) w out with he | he <;> exact he
    refine ⟨fun r hr => ?_, Or.inl ⟨hw out, fun r hr => ?_⟩⟩
    · cases r with
      | error e => exact Or.inr (Or.inr (Or.inr ⟨_, rfl⟩))
      | ok oldest => exact Or.inr (Or.inr (Or.inl ⟨oldest, rfl⟩))
    · refine ⟨?_, fun _ => Or.inl rfl⟩
      cases r with
      | error e => simp [Allowed]
      | ok oldest => simp [Allowed, removing]
  · -- the entry is removed
    unfold removing at h
    cases h
    have hover : ∀ r, out.reply (rateHandler c) (.zremrangebyscore (rlKey bucket userId) c.now c.now) w =
      some r →
        ∃ e, Prog.cont (fun _ => .done (.error (.rateLimitExceeded
          (max (1 / 10) (retryAfter windowS c.now oldest))))) r =
          (.done (.error e) : Prog RateCalls RateErr (Bool × Nat)) := by
      intro r _
      cases r <;> exact ⟨_, rfl⟩
    refine ⟨fun r hr => ?_, ?_⟩
    · obtain ⟨e, he⟩ := hover r hr
      exact Or.inr (Or.inr (Or.inr ⟨_, he⟩))
    have hprog : ∀ r, out.reply (rateHandler c) (.zremrangebyscore (rlKey bucket userId) c.now c.now) w =
      some r →
        ¬ Allowed (Prog.cont (fun _ => .done (.error (.rateLimitExceeded
          (max (1 / 10) (retryAfter windowS c.now oldest))))) r) := by
      intro r hr
      obtain ⟨e, he⟩ := hover r hr
      rw [he]
      simp [Allowed]
    rcases Outcome.world_eq (rateHandler c) (.zremrangebyscore (rlKey bucket userId) c.now c.now) w out
      with hw | hw
    · exact Or.inl ⟨hw, fun r hr => ⟨hprog r hr, fun _ => Or.inr (Or.inl ⟨oldest, rfl⟩)⟩⟩
    · refine Or.inr (Or.inr ⟨⟨_, _, _, rfl⟩, ?_, ?_, fun r hr =>
        ⟨hprog r hr, fun _ => Or.inr (Or.inl ⟨oldest, rfl⟩)⟩⟩)
      · rw [hw, rollback_key]
      · rw [hw]
        exact rollback_times _ _ _
  · cases h

/-! ### The calls that were allowed -/

/-- The call of a process that has returned `(True, _)`. -/
def granted (s : RateState) (pid : Nat) : Option RateCall :=
  match s.procs pid with
  | some ⟨c, .done (.ok _)⟩ => some c
  | _ => none

/-- The call of a process that has raised `RateLimitExceeded`. -/
def refused (s : RateState) (pid : Nat) : Option RateCall :=
  match s.procs pid with
  | some ⟨c, .done (.error (.rateLimitExceeded _))⟩ => some c
  | _ => none

/-- At most `limit` of the allowed calls have their clock value in any `(t - w, t]`. -/
def WindowSafe (limit windowS : Nat) (g : Nat → Option RateCall) : Prop :=
  ∀ (t : ℚ) (F : Finset Nat), (∀ pid ∈ F, ∃ c, g pid = some c ∧ t - windowS < c.now ∧ c.now ≤ t) →
    F.card ≤ limit

/-- The sorted set follows the allowed calls `g`: the ones still in the window are in the set, each under
a member of its own, none is later than the clock, and the key outlives them. -/
structure Tracks (limit windowS : Nat) (g : Nat → Option RateCall) (k : RateKey) (clock : ℚ) : Prop where
  live : ∀ pid c, g pid = some c → clock - windowS < c.now → (⟨c.member, c.now⟩ : Entry RateMember ℚ) ∈ k.zset
  past : ∀ pid c, g pid = some c → c.now ≤ clock
  lifetime : ∀ pid c d, g pid = some c → k.deadline = some d → c.now + windowS < d
  apart : ∀ pid c pid' c', g pid = some c → g pid' = some c' → pid ≠ pid' → clock - windowS < c.now →
    clock - windowS < c'.now → c.member ≠ c'.member
  safe : WindowSafe limit windowS g

section Tracks

variable {limit windowS : Nat} {g : Nat → Option RateCall} {k : RateKey} {clock : ℚ} {c : RateCall}

/-- An allowed call of the new window survives the purge and the insertion of a new member. -/
private theorem Tracks.live_after (h : Tracks limit windowS g k clock) (hc : clock ≤ c.now)
    (hnew : ∀ pid d, g pid = some d → d.member ≠ c.member) {pid : Nat} {d : RateCall}
    (hd : g pid = some d) (hw : c.now - windowS < d.now) :
    (⟨d.member, d.now⟩ : Entry RateMember ℚ) ∈ (k.after windowS c).zset := by
  have hmem := h.live pid d hd (by linarith)
  simp only [RateKey.after, ZSet.mem_zadd, ZSet.mem_zremrangebyscore]
  exact Or.inr ⟨⟨hmem, fun hle => absurd hle.2 (not_le.mpr hw)⟩, hnew pid d hd⟩

/-- A pipeline whose call is not allowed (it is rejected, or its process fails): the entry it leaves does
not matter. -/
theorem Tracks.pipeline (h : Tracks limit windowS g k clock) (hc : clock ≤ c.now)
    (hnew : ∀ pid d, g pid = some d → d.member ≠ c.member) :
    Tracks limit windowS g (k.after windowS c) c.now where
  live pid d hd hw := h.live_after hc hnew hd hw
  past pid d hd := le_trans (h.past pid d hd) hc
  lifetime pid d e hd he := by
    simp only [RateKey.after, Option.some.injEq] at he
    have := h.past pid d hd
    linarith
  apart pid d pid' d' hd hd' hne hw hw' := h.apart pid d pid' d' hd hd' hne (by linarith) (by linarith)
  safe := h.safe

/-- A pipeline that counts fewer than `limit` entries: the call `c` of process `pid` is allowed. -/
theorem Tracks.allow (h : Tracks limit windowS g k clock) (hc : clock ≤ c.now)
    (hnew : ∀ pid d, g pid = some d → d.member ≠ c.member) {pid : Nat} (hpid : g pid = none)
    (hcount : k.count windowS c < limit) :
    Tracks limit windowS (Function.update g pid (some c)) (k.after windowS c) c.now := by
  have hold : ∀ q d, Function.update g pid (some c) q = some d → q = pid ∧ d = c ∨ q ≠ pid ∧
      g q = some d := by
    intro q d hq
    by_cases he : q = pid
    · subst he
      rw [Function.update_self, Option.some.injEq] at hq
      exact Or.inl ⟨rfl, hq.symm⟩
    · rw [Function.update_of_ne he] at hq
      exact Or.inr ⟨he, hq⟩
  refine ⟨?_, ?_, ?_, ?_, ?_⟩
  · intro q d hq hw
    rcases hold q d hq with ⟨rfl, rfl⟩ | ⟨-, hq⟩
    · simp [RateKey.after]
    · exact h.live_after hc hnew hq hw
  · intro q d hq
    rcases hold q d hq with ⟨rfl, rfl⟩ | ⟨-, hq⟩
    · exact le_refl _
    · exact le_trans (h.past q d hq) hc
  · intro q d e hq he
    simp only [RateKey.after, Option.some.injEq] at he
    rcases hold q d hq with ⟨rfl, rfl⟩ | ⟨-, hq⟩
    · linarith
    · have := h.past q d hq
      linarith
  · intro q d q' d' hq hq' hne hw hw'
    rcases hold q d hq with ⟨rfl, rfl⟩ | ⟨-, ho⟩ <;> rcases hold q' d' hq' with ⟨rfl, rfl⟩ | ⟨-, ho'⟩
    · exact absurd rfl hne
    · exact fun he => hnew q' d' ho' he.symm
    · exact fun he => hnew q d ho he
    · exact h.apart q d q' d' ho ho' hne (by linarith) (by linarith)
  · -- the earlier calls of a window that contains `c` have distinct members in the purged set
    intro t F hF
    by_cases hp : pid ∈ F
    · obtain ⟨d, hd, hlt, hle⟩ := hF pid hp
      rw [Function.update_self, Option.some.injEq] at hd
      subst hd
      have hrest : ∀ q ∈ F.erase pid, ∃ d, g q = some d ∧ c.now - windowS < d.now := by
        intro q hq
        obtain ⟨hne, hq⟩ := Finset.mem_erase.mp hq
        obtain ⟨d, hd, hlt', -⟩ := hF q hq
        rw [Function.update_of_ne hne] at hd
        exact ⟨d, hd, by linarith⟩
      let m : Nat → RateMember := fun q => ((g q).map RateCall.member).getD c.member
      have hinj : Set.InjOn m (F.erase pid : Finset Nat) := by
        intro q hq q' hq' hm
        obtain ⟨d, hd, hw⟩ := hrest q hq
        obtain ⟨d', hd', hw'⟩ := hrest q' hq'
        by_contra hne
        refine h.apart q d q' d' hd hd' hne (by linarith) (by linarith) ?_
        simpa [m, hd, hd'] using hm
      have hcard : (F.erase pid).card ≤ k.count windowS c := by
        rw [← Finset.card_image_of_injOn hinj]
        refine ZSet.card_le_zcard fun x hx => ?_
        obtain ⟨q, hq, rfl⟩ := Finset.mem_image.mp hx
        obtain ⟨d, hd, hw⟩ := hrest q hq
        refine ⟨⟨d.member, d.now⟩, ?_, by simp [m, hd]⟩
        simp only [ZSet.mem_zremrangebyscore]
        exact ⟨h.live q d hd (by linarith), fun hle => absurd hle.2 (not_le.mpr hw)⟩
      have := Finset.card_erase_add_one hp
      omega
    · refine h.safe t F fun q hq => ?_
      obtain ⟨d, hd, hlt, hle⟩ := hF q hq
      have hne : q ≠ pid := fun he => hp (he ▸ hq)
      rw [Function.update_of_ne hne] at hd
      exact ⟨d, hd, hlt, hle⟩

/-- A rollback that meets no entry of an allowed call. -/
theorem Tracks.rollback (h : Tracks limit windowS g k clock)
    (hown : ∀ pid d, g pid = some d → clock - windowS < d.now → d.now ≠ c.now) :
    Tracks limit windowS g ⟨k.zset.zremrangebyscore c.now c.now, k.deadline⟩ clock where
  live pid d hd hw := by
    have hmem := h.live pid d hd hw
    refine ZSet.mem_zremrangebyscore.mpr ⟨hmem, fun hle => ?_⟩
    exact hown pid d hd hw (le_antisymm hle.2 hle.1)
  past := h.past
  lifetime := h.lifetime
  apart := h.apart
  safe := h.safe

/-- Time passes. -/
theorem Tracks.later (h : Tracks limit windowS g k clock) {clock' : ℚ} (hc : clock ≤ clock') :
    Tracks limit windowS g k clock' where
  live pid d hd hw := h.live pid d hd (by linarith)
  past pid d hd := le_trans (h.past pid d hd) hc
  lifetime := h.lifetime
  apart pid d pid' d' hd hd' hne hw hw' := h.apart pid d pid' d' hd hd' hne (by linarith) (by linarith)
  safe := h.safe

/-- The key expires: every allowed call has left the window by then. -/
theorem Tracks.expire (h : Tracks limit windowS g k clock) {d : ℚ} (hd : k.deadline = some d) :
    Tracks limit windowS g ⟨ZSet.empty, none⟩ (max clock d) := by
  have hout : ∀ pid c, g pid = some c → ¬ max clock d - windowS < c.now := by
    intro pid c hc hlt
    have := h.lifetime pid c d hc hd
    have := le_max_right clock d
    linarith
  exact
    { live := fun pid c hc hw => absurd hw (hout pid c hc)
      past := fun pid c hc => le_trans (h.past pid c hc) (le_max_left _ _)
      lifetime := by simp
      apart := fun pid c _ _ hc _ _ hw _ => absurd hw (hout pid c hc)
      safe := h.safe }

end Tracks

end LegalRag
