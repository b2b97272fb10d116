import LegalRag.Cache.RateSteps

/-!
# At most `limit` calls of a window are allowed

`window_safe` holds of every run from the empty store: replies may be lost, processes may die, keys
expire.  The pipelines run in the order of their clock values, and no rollback removes the entry of an
allowed call (`OwnRollback`).  The code does not ensure the latter, as it removes by score and not by
member: `window_unsafe`.
-/

namespace LegalRag

open Calls Redis Service

variable {userId bucket : String} {limit windowS : Nat}

/-- The pipelines run in the order of their clock values. -/
def InOrder (s : RateState) (l : RateLabel) : Prop := ∀ c ∈ pipelineOf s l, s.world.clock ≤ c.now

instance (s : RateState) (l : RateLabel) : Decidable (InOrder s l) :=
  inferInstanceAs (Decidable (∀ c ∈ pipelineOf s l, s.world.clock ≤ c.now))

/-- A pipeline is not older than an expiry of the key and its member is not that of an allowed call; a
rollback has the clock value of no allowed call in the window. -/
def OwnRollback (windowS : Nat) (s : RateState) (l : RateLabel) : Prop :=
  (∀ c ∈ pipelineOf s l, s.world.expiry ≤ c.now ∧ ∀ q d, granted s q = some d → d.member ≠ c.member) ∧
    ∀ c ∈ rollbackOf s l, ∀ q d, granted s q = some d → s.world.time - windowS < d.now → d.now ≠ c.now

/-- The invariant of the runs that meet `OwnRollback`. -/
def WindowInv (userId bucket : String) (limit windowS : Nat) (s : RateState) : Prop :=
  AtStages userId bucket limit windowS s ∧
    Tracks limit windowS (granted s) (s.world.keys (rlKey bucket userId)) s.world.time

theorem WindowInv.step {s s' : RateState} {l : RateLabel} (hi : WindowInv userId bucket limit windowS s)
    (hc : ClientErrors l ∧ InOrder s l ∧ OwnRollback windowS s l)
    (h : (rateLimiter userId bucket limit windowS).step s l = some s') :
    WindowInv userId bucket limit windowS s' := by
  obtain ⟨hst, ht⟩ := hi
  obtain ⟨hl, horder, hown⟩ := hc
  obtain ⟨hst', heff⟩ := rate_step hst hl h
  refine ⟨hst', ?_⟩
  cases heff with
  | quiet hworld hgr hrej => rw [hworld, hgr]; exact ht
  | pipeline pid c hp hkey htimes hgr hrej =>
    obtain ⟨hexp, hnew⟩ := hown.1 c hp
    have htime : s'.world.time = c.now := by rw [RateStore.time, htimes.1, htimes.2, max_eq_left hexp]
    have hle : s.world.time ≤ c.now := max_le (horder c hp) hexp
    rw [hkey, htime]
    rcases hgr with hgr | ⟨hpid, hgr, hcount⟩
    · rw [hgr]
      exact ht.pipeline hle hnew
    · rw [hgr]
      exact ht.allow hle hnew hpid hcount
  | rollback c hp hkey htimes hgr hrej =>
    have htime : s'.world.time = s.world.time :=
      by rw [RateStore.time, htimes.1, htimes.2, RateStore.time]
    rw [hkey, htime, hgr]
    exact ht.rollback (hown.2 c hp)
  | expire d hkey htimes hgr hrej =>
    have htime : s'.world.time = max s.world.time d := by
      rw [RateStore.time, htimes.1, htimes.2, RateStore.time, max_assoc]
    rw [htime, hgr]
    rcases hkey with hkey | ⟨hd, hkey⟩
    · rw [hkey]
      exact ht.later (le_max_left _ _)
    · rw [hkey]
      exact ht.expire hd

theorem windowInv_init : WindowInv userId bucket limit windowS (idle RateStore.init) := by
  refine ⟨by simp [AtStages, idle], ?_⟩
  have hg : ∀ pid, granted (idle RateStore.init) pid = none := fun _ => rfl
  refine ⟨by simp [hg], by simp [hg], by simp [hg], by simp [hg], fun t F hF => ?_⟩
  have : F = ∅ := Finset.eq_empty_of_forall_notMem fun q hq => by
    obtain ⟨c, hc, -⟩ := hF q hq
    simp [hg] at hc
  simp [this]

/-- In every run from the empty store whose pipelines run in order and whose rollbacks remove no entry of
an allowed call, at most `limit` of the calls of any window are allowed. -/
theorem window_safe (userId bucket : String) (limit windowS : Nat) {ls : List RateLabel} {s : RateState}
    (hm : (rateLimiter userId bucket limit windowS).Meets
      (fun s l => ClientErrors l ∧ InOrder s l ∧ OwnRollback windowS s l) (idle RateStore.init) ls)
    (hr : (rateLimiter userId bucket limit windowS).run (idle RateStore.init) ls = some s) :
    WindowSafe limit windowS (granted s) :=
  (run_induct (fun _ _ _ hi hc h => WindowInv.step hi hc h) windowInv_init hm hr).2.safe

/-- Two calls, the second of which finds the limit used up. -/
def twoCallRun : List RateLabel :=
  [.start 0 ⟨100, 0⟩, .call 0 .ok, .start 1 ⟨101, 1⟩, .call 1 .ok, .call 1 .ok, .call 1 .ok]

theorem window_safe_two :
    ∃ s, (rateLimiter "u" "chat" 1 60).run (idle RateStore.init) twoCallRun = some s ∧
      WindowSafe 1 60 (granted s) := by
  obtain ⟨s, hs⟩ : ∃ s, (rateLimiter "u" "chat" 1 60).run (idle RateStore.init) twoCallRun = some s :=
    Option.isSome_iff_exists.mp (by decide +kernel)
  refine ⟨s, hs, window_safe "u" "chat" 1 60 ?_ hs⟩
  refine meets_of_below 2 (fun s l => ClientErrors l ∧ InOrder s l ∧
    (∀ c ∈ pipelineOf s l, s.world.expiry ≤ c.now ∧ ∀ q < 2, ∀ d ∈ granted s q, d.member ≠ c.member) ∧
    ∀ c ∈ rollbackOf s l, ∀ q < 2, ∀ d ∈ granted s q, s.world.time - (60 : Nat) < d.now →
      d.now ≠ c.now) ?_ (idle_below _ _) (by decide +kernel)
  rintro s l hs ⟨hl, ho, hp, hr⟩
  refine ⟨hl, ho, fun c hc => ⟨(hp c hc).1, fun q d hd => ?_⟩, fun c hc q d hd => ?_⟩
  · exact (hp c hc).2 q (granted_lt hs hd) d hd
  · exact hr c hc q (granted_lt hs hd) d hd

/-- Three calls, two of which read the same clock value. -/
def sameClockRun : List RateLabel :=
  [.start 0 ⟨100, 0⟩, .call 0 .ok, .start 1 ⟨100, 1⟩, .call 1 .ok, .call 1 .ok, .call 1 .ok,
    .start 2 ⟨101, 2⟩, .call 2 .ok]

/-- A rollback can remove the entry of an allowed call, and the window then admits one call too many. -/
theorem window_unsafe :
    (rateLimiter "u" "chat" 1 60).Meets (fun s l => ClientErrors l ∧ InOrder s l) (idle RateStore.init)
      sameClockRun ∧
    ∃ s, (rateLimiter "u" "chat" 1 60).run (idle RateStore.init) sameClockRun = some s ∧
      ¬ WindowSafe 1 60 (granted s) := by
  refine ⟨by decide +kernel, ?_⟩
  have hg : ((rateLimiter "u" "chat" 1 60).run (idle RateStore.init) sameClockRun).map
      (fun s => (granted s 0, granted s 2)) = some (some ⟨100, 0⟩, some ⟨101, 2⟩) := by
    decide +kernel
  obtain ⟨s, hs, hg⟩ := Option.map_eq_some_iff.mp hg
  simp only [Prod.mk.injEq] at hg
  refine ⟨s, hs, fun hsafe => ?_⟩
  have htwo := hsafe 101 {0, 2} fun q hq => by
    simp only [Finset.mem_insert, Finset.mem_singleton] at hq
    rcases hq with rfl | rfl
    · exact ⟨_, hg.1, by norm_num, by norm_num⟩
    · exact ⟨_, hg.2, by norm_num, by norm_num⟩
  simp at htwo

end LegalRag
