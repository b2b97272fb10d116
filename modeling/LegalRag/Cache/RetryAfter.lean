import LegalRag.Cache.SlidingWindow
import Mathlib.Data.Rat.Floor

/-!
# How long a rejected call is told to wait

Runs in which every call of `allow_request` completes before the next one starts.  Between two calls the
key may expire at any moment.

* `WithinLimit`: between calls the set holds at most `limit` entries, each under a member with its own
time; `withinLimit_served` for one call, `withinLimit_after` for a run;
* `restored`: the rollback of a rejected call leaves what its purge has left;
* `retry_after_sufficient`: a call after the time that a rejected one is told to wait is allowed, for the
purge takes the entry that is exactly as old as the window; `header_sufficient` is the same for the whole
seconds of the `Retry-After` header.
-/

namespace LegalRag

open Calls Redis

variable (userId bucket : String) (limit windowS : Nat)

/-- A call of `allow_request` that completes. -/
def servedCall (c : RateCall) (w : RateStore) : Except RateErr (Bool × Nat) × RateStore :=
  (allowRequest userId bucket limit windowS c.now c.hex).exec (rateHandler c) w

/-- A call, or the end of the lifetime of the key. -/
inductive RateEvent where
  | call (c : RateCall)
  | expired

/-- The store after an event. -/
def RateEvent.next (w : RateStore) : RateEvent → RateStore
  | .call c => (servedCall userId bucket limit windowS c w).2
  | .expired => ((RateEnv.expire (rlKey bucket userId)).step w).getD w

/-- The store after a run. -/
def storeAfter (evs : List RateEvent) : RateStore :=
  evs.foldl (RateEvent.next userId bucket limit windowS) RateStore.init

/-- The times of the calls of a run. -/
def RateEvent.times : List RateEvent → List ℚ
  | [] => []
  | .call c :: evs => c.now :: RateEvent.times evs
  | .expired :: evs => RateEvent.times evs

/-- The times are those of a clock that counts from the epoch, and strictly increase. -/
structure ClockTimes (evs : List RateEvent) : Prop where
  epoch : ∀ t ∈ RateEvent.times evs, 0 ≤ t
  strict : (RateEvent.times evs).Pairwise (· < ·)

/-! ### One call -/

variable {userId bucket limit windowS}

/-- The set that a call counts. -/
def RateKey.purged (windowS : Nat) (c : RateCall) (k : RateKey) : ZSet RateMember ℚ :=
  k.zset.zremrangebyscore 0 (c.now - windowS)

/-- A call that counts fewer than `limit` entries is allowed, and leaves its entry. -/
private theorem served_allowed {c : RateCall} {w : RateStore}
    (h : (w.keys (rlKey bucket userId)).count windowS c < limit) :
    (servedCall userId bucket limit windowS c w).1 =
      .ok (true, limit - (w.keys (rlKey bucket userId)).count windowS c - 1) ∧
    (servedCall userId bucket limit windowS c w).2.keys (rlKey bucket userId) =
      (w.keys (rlKey bucket userId)).after windowS c := by
  obtain ⟨replies, hok, hcount⟩ := pipeline_reply (rlKey bucket userId) windowS c w
  have hkey := pipeline_key (rlKey bucket userId) windowS c w
  rw [servedCall, allowRequest_eq, Prog.exec_call, hok, Prog.cont_ok, hcount, counted,
    if_neg (Nat.not_le.mpr h), Prog.exec_done]
  exact ⟨rfl, hkey⟩

/-- A call that counts `limit` entries is rejected, and its entry is removed by its time. -/
private theorem served_rejected {c : RateCall} {w : RateStore}
    (h : limit ≤ (w.keys (rlKey bucket userId)).count windowS c) :
    (servedCall userId bucket limit windowS c w).1 = .error (.rateLimitExceeded (max (1 / 10)
      (retryAfter windowS c.now ((w.keys (rlKey bucket userId)).after windowS c).zset.lowest))) ∧
    ((servedCall userId bucket limit windowS c w).2.keys (rlKey bucket userId)).zset =
      ((w.keys (rlKey bucket userId)).after windowS c).zset.zremrangebyscore c.now c.now := by
  obtain ⟨replies, hok, hcount⟩ := pipeline_reply (rlKey bucket userId) windowS c w
  have hkey := pipeline_key (rlKey bucket userId) windowS c w
  rw [servedCall, allowRequest_eq, Prog.exec_call, hok, Prog.cont_ok, hcount, counted, if_pos h, ← hkey]
  generalize (rateHandler c (.pipeline (rateCmds (rlKey bucket userId) windowS c)) w).2 = v
  have hroll := rollback_key (rlKey bucket userId) c v
  exact ⟨rfl, congrArg RateKey.zset hroll⟩

/-! ### The set between calls -/

/-- At most `limit` entries, each under a member with its own time, and all before `t`. -/
structure WithinLimit (limit : Nat) (t : ℚ) (k : RateKey) : Prop where
  few : k.zset.zcard ≤ limit
  dated : ∀ e ∈ k.zset, e.member.now = e.score
  epoch : ∀ e ∈ k.zset, 0 ≤ e.score
  past : ∀ e ∈ k.zset, e.score < t

private theorem WithinLimit.later {t u : ℚ} {k : RateKey} (h : WithinLimit limit t k) (htu : t ≤ u) :
    WithinLimit limit u k :=
  ⟨h.few, h.dated, h.epoch, fun e he => lt_of_lt_of_le (h.past e he) htu⟩

private theorem WithinLimit.subset {t : ℚ} {k k' : RateKey} (h : WithinLimit limit t k)
    (hsub : ∀ e ∈ k'.zset, e ∈ k.zset) : WithinLimit limit t k' where
  few := le_trans (ZSet.zcard_le_of_subset hsub) h.few
  dated e he := h.dated e (hsub e he)
  epoch e he := h.epoch e (hsub e he)
  past e he := h.past e (hsub e he)

private theorem mem_purged {c : RateCall} {k : RateKey} {e : Entry RateMember ℚ}
    (he : e ∈ k.purged windowS c) : e ∈ k.zset := (ZSet.mem_zremrangebyscore.mp he).1

private theorem mem_after {c : RateCall} {k : RateKey} {e : Entry RateMember ℚ} :
    e ∈ (k.after windowS c).zset ↔
      e = ⟨c.member, c.now⟩ ∨ e ∈ k.purged windowS c ∧ e.member ≠ c.member := ZSet.mem_zadd

/-- The rollback removes the entry of the call and no other one. -/
theorem restored {c : RateCall} {k : RateKey} (h : WithinLimit limit c.now k) {e : Entry RateMember ℚ} :
    e ∈ (k.after windowS c).zset.zremrangebyscore c.now c.now ↔ e ∈ k.purged windowS c := by
  rw [ZSet.mem_zremrangebyscore, mem_after]
  constructor
  · rintro ⟨rfl | ⟨he, -⟩, hrange⟩
    · exact absurd ⟨le_refl _, le_refl _⟩ hrange
    · exact he
  · intro he
    have hpast := h.past e (mem_purged he)
    have hmember : e.member ≠ c.member := by
      intro heq
      have hnow := h.dated e (mem_purged he)
      rw [heq] at hnow
      exact absurd hnow (ne_of_gt hpast)
    exact ⟨Or.inr ⟨he, hmember⟩, fun hrange => absurd hrange.1 (not_le.mpr hpast)⟩

/-- One call. -/
theorem withinLimit_served {c : RateCall} {w : RateStore}
    (h : WithinLimit limit c.now (w.keys (rlKey bucket userId))) (hnow : 0 ≤ c.now) {u : ℚ} (hu : c.now < u) :
    WithinLimit limit u ((servedCall userId bucket limit windowS c w).2.keys (rlKey bucket userId)) := by
  rcases Nat.lt_or_ge ((w.keys (rlKey bucket userId)).count windowS c) limit with hcount | hcount
  · -- the entry of the call is one more than the window held
    rw [(served_allowed hcount).2]
    refine ⟨?_, ?_, ?_, ?_⟩
    · have hadd := ZSet.zcard_zadd_le c.member c.now ((w.keys (rlKey bucket userId)).purged windowS c)
      exact le_trans hadd hcount
    · intro e he
      rcases mem_after.mp he with rfl | ⟨he, -⟩
      · rfl
      · exact h.dated e (mem_purged he)
    · intro e he
      rcases mem_after.mp he with rfl | ⟨he, -⟩
      · exact hnow
      · exact h.epoch e (mem_purged he)
    · intro e he
      rcases mem_after.mp he with rfl | ⟨he, -⟩
      · exact hu
      · exact lt_trans (h.past e (mem_purged he)) hu
  · -- the rollback leaves what the purge left
    refine (h.later (le_of_lt hu)).subset fun e he => ?_
    rw [(served_rejected hcount).2] at he
    exact mem_purged ((restored h).mp he)

/-- The end of a lifetime leaves no entry that was not there. -/
private theorem mem_expired {w : RateStore} {e : Entry RateMember ℚ}
    (he : e ∈ ((RateEvent.expired.next userId bucket limit windowS w).keys (rlKey bucket userId)).zset) :
    e ∈ (w.keys (rlKey bucket userId)).zset := by
  simp only [RateEvent.next, RateEnv.step] at he
  cases hd : (w.keys (rlKey bucket userId)).deadline with
  | none => simpa [hd] using he
  | some d => simp [hd, RateStore.update] at he

/-! ### Runs -/

private theorem times_append (evs evs' : List RateEvent) :
    RateEvent.times (evs ++ evs') = RateEvent.times evs ++ RateEvent.times evs' := by
  induction evs with
  | nil => rfl
  | cons e evs ih =>
    cases e with
    | call c => simp [RateEvent.times, ih]
    | expired => simp [RateEvent.times, ih]

private theorem storeAfter_concat (evs : List RateEvent) (e : RateEvent) :
    storeAfter userId bucket limit windowS (evs ++ [e]) =
      e.next userId bucket limit windowS (storeAfter userId bucket limit windowS evs) := by
  rw [storeAfter, List.foldl_append]
  rfl

private theorem ClockTimes.of_append {evs evs' : List RateEvent} (h : ClockTimes (evs ++ evs')) :
    ClockTimes evs where
  epoch t ht := h.epoch t (by rw [times_append]; exact List.mem_append_left _ ht)
  strict := by
    have hstrict := h.strict
    rw [times_append] at hstrict
    exact (List.pairwise_append.mp hstrict).1

private theorem ClockTimes.last {evs : List RateEvent} {c : RateCall} (h : ClockTimes (evs ++ [.call c])) :
    0 ≤ c.now ∧ ∀ t ∈ RateEvent.times evs, t < c.now := by
  have hstrict := h.strict
  have hepoch := h.epoch
  rw [times_append] at hstrict hepoch
  constructor
  · exact hepoch c.now (by simp [RateEvent.times])
  · intro t ht
    exact (List.pairwise_append.mp hstrict).2.2 t ht c.now (by simp [RateEvent.times])

theorem withinLimit_after {evs : List RateEvent} (h : ClockTimes evs) {u : ℚ}
    (hu : ∀ t ∈ RateEvent.times evs, t < u) :
    WithinLimit limit u ((storeAfter userId bucket limit windowS evs).keys (rlKey bucket userId)) := by
  induction evs using List.reverseRecOn generalizing u with
  | nil =>
    have hnone : ∀ e : Entry RateMember ℚ, e ∉ ((storeAfter userId bucket limit windowS []).keys
        (rlKey bucket userId)).zset := ZSet.not_mem_empty
    exact ⟨Nat.zero_le _, fun e he => absurd he (hnone e), fun e he => absurd he (hnone e),
      fun e he => absurd he (hnone e)⟩
  | append_singleton evs e ih =>
    have hbefore := h.of_append
    rw [storeAfter_concat]
    rw [times_append] at hu
    cases e with
    | call c =>
      obtain ⟨hnow, hlast⟩ := h.last
      exact withinLimit_served (ih hbefore hlast) hnow (hu c.now (by simp [RateEvent.times]))
    | expired =>
      have hkept := ih hbefore fun t ht => hu t (List.mem_append_left _ ht)
      exact hkept.subset fun e he => mem_expired he

private theorem exists_later (ts : List ℚ) : ∃ u, ∀ t ∈ ts, t < u := by
  induction ts with
  | nil => exact ⟨0, nofun⟩
  | cons s ts ih =>
    obtain ⟨u, hu⟩ := ih
    refine ⟨max u (s + 1), ?_⟩
    intro t ht
    rcases List.mem_cons.mp ht with rfl | ht
    · exact lt_max_of_lt_right (by linarith)
    · exact lt_max_of_lt_left (hu t ht)

private theorem mem_expirations (n : Nat) {evs : List RateEvent} {e : Entry RateMember ℚ}
    (he : e ∈ ((storeAfter userId bucket limit windowS (evs ++ List.replicate n .expired)).keys
      (rlKey bucket userId)).zset) :
    e ∈ ((storeAfter userId bucket limit windowS evs).keys (rlKey bucket userId)).zset := by
  induction n with
  | zero => simpa using he
  | succ n ih =>
    rw [List.replicate_succ', ← List.append_assoc, storeAfter_concat] at he
    exact ih (mem_expired he)

/-! ### After a rejection -/

/-- A rejected call waits for the oldest entry of the window. -/
private theorem oldest_of_rejected (hlimit : 1 ≤ limit) {c : RateCall} {k : RateKey}
    (h : WithinLimit limit c.now k) (hfull : limit ≤ k.count windowS c) :
    ∃ e ∈ k.purged windowS c,
      retryAfter windowS c.now (k.after windowS c).zset.lowest = windowS - (c.now - e.score) := by
  have hne : (k.purged windowS c).entries ≠ [] :=
    List.ne_nil_of_length_pos (Nat.lt_of_lt_of_le hlimit hfull)
  obtain ⟨f, hf⟩ := List.exists_mem_of_ne_nil _ hne
  have hf' : f ∈ (k.after windowS c).zset.zremrangebyscore c.now c.now := (restored h).mpr hf
  obtain ⟨e, he, hlow, hleast⟩ := ZSet.lowest_eq (ZSet.mem_zremrangebyscore.mp hf').1
  refine ⟨e, ?_, by rw [hlow, retryAfter]⟩
  rcases mem_after.mp he with rfl | ⟨he, -⟩
  · -- the entry of the call itself is the latest one
    have hle := hleast f (ZSet.mem_zremrangebyscore.mp hf').1
    exact absurd (h.past f (mem_purged hf)) (not_lt.mpr hle)
  · exact he

/-- The purge of a call that has waited leaves fewer than `limit` of the entries. -/
private theorem count_lt_of_waited (hlimit : 1 ≤ limit) {c d : RateCall} {k k' : RateKey}
    (h : WithinLimit limit c.now k) (hfull : limit ≤ k.count windowS c)
    (hk' : ∀ e ∈ k'.zset, e ∈ k.purged windowS c)
    (hwait : c.now + retryAfter windowS c.now (k.after windowS c).zset.lowest ≤ d.now) :
    k'.count windowS d < limit := by
  obtain ⟨e, he, hretry⟩ := oldest_of_rejected hlimit h hfull
  have hold : e.score ≤ d.now - windowS := by
    rw [hretry] at hwait
    linarith
  have hgone : e ∉ k'.purged windowS d := by
    intro hin
    exact (ZSet.mem_zremrangebyscore.mp hin).2 ⟨h.epoch e (mem_purged he), hold⟩
  have hsub : ∀ f ∈ k'.purged windowS d, f ∈ k.purged windowS c := fun f hf => hk' f (mem_purged hf)
  have hlt := ZSet.zcard_lt_of_subset hsub he hgone
  have hpurge := ZSet.zcard_zremrangebyscore_le 0 (c.now - windowS) k.zset
  exact lt_of_lt_of_le hlt (le_trans hpurge h.few)

/-- A rejected call is told at least a tenth of a second. -/
private theorem retry_nonneg {c : RateCall} {w : RateStore} {r : ℚ}
    (hrej : (servedCall userId bucket limit windowS c w).1 = .error (.rateLimitExceeded r)) : 0 ≤ r := by
  rcases Nat.lt_or_ge ((w.keys (rlKey bucket userId)).count windowS c) limit with hcount | hfull
  · rw [(served_allowed hcount).1] at hrej
    cases hrej
  · rw [(served_rejected hfull).1] at hrej
    obtain rfl := RateErr.rateLimitExceeded.inj (Except.error.inj hrej)
    exact le_max_of_le_left (by norm_num)

/-- The next call after the time that a rejected one is told. -/
private theorem allowed_of_waited (hlimit : 1 ≤ limit) {evs : List RateEvent} {c : RateCall} {r : ℚ}
    (h : ClockTimes (evs ++ [.call c]))
    (hrej : (servedCall userId bucket limit windowS c (storeAfter userId bucket limit windowS evs)).1 =
      .error (.rateLimitExceeded r)) (n : Nat) {d : RateCall} (hwait : c.now + r ≤ d.now) :
    ∃ remaining, (servedCall userId bucket limit windowS d (storeAfter userId bucket limit windowS
      (evs ++ [.call c] ++ List.replicate n .expired))).1 = .ok (true, remaining) := by
  have hwithin : WithinLimit limit c.now ((storeAfter userId bucket limit windowS evs).keys
      (rlKey bucket userId)) := withinLimit_after h.of_append h.last.2
  rcases Nat.lt_or_ge (((storeAfter userId bucket limit windowS evs).keys
    (rlKey bucket userId)).count windowS c) limit with hcount | hfull
  · rw [(served_allowed hcount).1] at hrej
    cases hrej
  · obtain ⟨hreply, hkey⟩ := served_rejected hfull
    rw [hreply] at hrej
    obtain rfl := RateErr.rateLimitExceeded.inj (Except.error.inj hrej)
    refine ⟨_, (served_allowed (count_lt_of_waited hlimit hwithin hfull ?_ ?_)).1⟩
    · intro e he
      have hkept := mem_expirations n he
      rw [storeAfter_concat, RateEvent.next, hkey] at hkept
      exact (restored hwithin).mp hkept
    · refine le_trans ?_ hwait
      gcongr
      exact le_max_right _ _

/-- Between calls the set holds at most `limit` entries; and a call that is rejected is told a time after
which the next call is allowed. -/
theorem retry_after_sufficient (hlimit : 1 ≤ limit) {evs : List RateEvent} (h : ClockTimes evs) :
    ((storeAfter userId bucket limit windowS evs).keys (rlKey bucket userId)).zset.zcard ≤ limit ∧
    ∀ before c r, evs = before ++ [.call c] →
      (servedCall userId bucket limit windowS c (storeAfter userId bucket limit windowS before)).1 =
        .error (.rateLimitExceeded r) →
      ∀ n d, c.now + r ≤ d.now →
        ∃ remaining, (servedCall userId bucket limit windowS d (storeAfter userId bucket limit windowS
          (evs ++ List.replicate n .expired))).1 = .ok (true, remaining) := by
  constructor
  · obtain ⟨u, hu⟩ := exists_later (RateEvent.times evs)
    exact (withinLimit_after h hu).few
  · rintro before c r rfl hrej n d hwait
    exact allowed_of_waited hlimit h hrej n hwait

/-- A limit of one: the second call is told to wait until the first has left the window. -/
theorem retry_after_sufficient_two :
    ∃ remaining, (servedCall "u" "chat" 1 10 ⟨11, 2⟩
      (storeAfter "u" "chat" 1 10 [.call ⟨1, 0⟩, .call ⟨3, 1⟩])).1 = .ok (true, remaining) := by
  have hclock : ClockTimes [.call ⟨1, 0⟩, .call ⟨3, 1⟩] := ⟨by decide +kernel, by decide +kernel⟩
  have hfull : 1 ≤ ((storeAfter "u" "chat" 1 10 [.call ⟨1, 0⟩]).keys (rlKey "chat" "u")).count 10 ⟨3, 1⟩ := by
    decide +kernel
  have hrej := (served_rejected hfull).1
  exact (retry_after_sufficient (Nat.le_refl 1) hclock).2 [.call ⟨1, 0⟩] ⟨3, 1⟩ _ rfl hrej 0 ⟨11, 2⟩
    (by decide +kernel)

/-! ### The header -/

/-- `int(x)`, which cuts towards zero. -/
def pyInt (x : ℚ) : Int := x.num.tdiv x.den

/-- The `Retry-After` header of `rate_limit`. -/
def retryAfterHeader (retryAfterS : ℚ) : Int := pyInt retryAfterS + 1

/-- The whole seconds of the header are at least the time to wait. -/
private theorem le_retryAfterHeader {r : ℚ} (hr : 0 ≤ r) : r ≤ retryAfterHeader r := by
  have hfloor : pyInt r = ⌊r⌋ := by
    rw [pyInt, Int.tdiv_eq_ediv_of_nonneg (Rat.num_nonneg.mpr hr), Rat.floor_def']
  rw [retryAfterHeader, hfloor]
  exact_mod_cast le_of_lt (Int.lt_floor_add_one r)

/-- A client that waits for the seconds of the header is allowed. -/
theorem header_sufficient (hlimit : 1 ≤ limit) {evs : List RateEvent} {c : RateCall} {r : ℚ}
    (h : ClockTimes (evs ++ [.call c]))
    (hrej : (servedCall userId bucket limit windowS c (storeAfter userId bucket limit windowS evs)).1 =
      .error (.rateLimitExceeded r)) (n : Nat) {d : RateCall} (hwait : c.now + retryAfterHeader r ≤ d.now) :
    ∃ remaining, (servedCall userId bucket limit windowS d (storeAfter userId bucket limit windowS
      (evs ++ [.call c] ++ List.replicate n .expired))).1 = .ok (true, remaining) := by
  refine allowed_of_waited hlimit h hrej n (le_trans ?_ hwait)
  gcongr
  exact le_retryAfterHeader (retry_nonneg hrej)

end LegalRag
