import LegalRag.Cache.RateSteps

/-!
# A rejected call finds its window full

`rejected_of_full` holds of every run from the empty store whose pipelines run in strict order and count
the entries of allowed calls only (`CountsAllowed`).  The code does not ensure the latter, as the entry of
a rejected call is in the set until its rollback: `rejected_of_rejected`.
-/

namespace LegalRag

open Calls Redis Service

variable {userId bucket : String} {limit windowS : Nat}

/-- The pipelines run in the order of their clock values, no two of which are the same. -/
def InStrictOrder (s : RateState) (l : RateLabel) : Prop := ∀ c ∈ pipelineOf s l, s.world.clock < c.now

instance (s : RateState) (l : RateLabel) : Decidable (InStrictOrder s l) :=
  inferInstanceAs (Decidable (∀ c ∈ pipelineOf s l, s.world.clock < c.now))

/-- A pipeline counts the entries of allowed calls only. -/
def CountsAllowed (userId bucket : String) (windowS : Nat) (s : RateState) (l : RateLabel) : Prop :=
  ∀ c ∈ pipelineOf s l, ∀ e ∈ (s.world.keys (rlKey bucket userId)).zset, c.now - windowS < e.score →
    ∃ q d, granted s q = some d ∧ e = ⟨d.member, d.now⟩

/-- `limit` of the calls before `c` in its window were allowed. -/
def FullBefore (limit windowS : Nat) (g : Nat → Option RateCall) (c : RateCall) : Prop :=
  ∃ F : Finset Nat, limit ≤ F.card ∧ ∀ q ∈ F, ∃ d, g q = some d ∧ c.now - windowS < d.now ∧ d.now < c.now

/-- The invariant of the runs that meet `CountsAllowed`. -/
structure FullInv (userId bucket : String) (limit windowS : Nat) (s : RateState) : Prop where
  stages : AtStages userId bucket limit windowS s
  past : ∀ q d, granted s q = some d → 0 ≤ d.now ∧ d.now ≤ s.world.clock
  epoch : 0 ≤ s.world.clock
  nonneg : ∀ e ∈ (s.world.keys (rlKey bucket userId)).zset, 0 ≤ e.score
  full : ∀ q c, RejectedIn userId bucket windowS s q c → FullBefore limit windowS (granted s) c

private theorem FullBefore.mono {g g' : Nat → Option RateCall} {c : RateCall}
    (h : FullBefore limit windowS g c) (hg : ∀ q d, g q = some d → g' q = some d) :
    FullBefore limit windowS g' c := by
  obtain ⟨F, hF, hall⟩ := h
  refine ⟨F, hF, fun q hq => ?_⟩
  obtain ⟨d, hd, hw⟩ := hall q hq
  exact ⟨d, hg q d hd, hw⟩

/-- What a pipeline counts, when it counts allowed calls only, is a set of allowed calls in its window. -/
private theorem full_of_count {s : RateState} {c : RateCall} (hi : FullInv userId bucket limit windowS s)
    (hclock : s.world.clock < c.now)
    (hcounts : ∀ e ∈ (s.world.keys (rlKey bucket userId)).zset, c.now - windowS < e.score →
      ∃ q d, granted s q = some d ∧ e = ⟨d.member, d.now⟩)
    (hfull : limit ≤ (s.world.keys (rlKey bucket userId)).count windowS c) :
    FullBefore limit windowS (granted s) c := by
  set purged := (s.world.keys (rlKey bucket userId)).zset.zremrangebyscore 0 (c.now - windowS) with hpurged
  have hcall : ∀ m ∈ (purged.entries.map Entry.member).toFinset, ∃ q d, granted s q = some d ∧
    d.member = m ∧ c.now - windowS < d.now ∧ d.now < c.now := by
    intro m hm
    obtain ⟨e, he, rfl⟩ := List.mem_map.mp (List.mem_toFinset.mp hm)
    obtain ⟨hmem, hscore⟩ := ZSet.mem_zremrangebyscore.mp (ZSet.mem_def.mpr he)
    have hlt : c.now - windowS < e.score := by
      by_contra hle
      exact hscore ⟨hi.nonneg e hmem, not_lt.mp hle⟩
    obtain ⟨q, d, hd, rfl⟩ := hcounts e hmem hlt
    exact ⟨q, d, hd, rfl, hlt, lt_of_le_of_lt (hi.past q d hd).2 hclock⟩
  choose! f hf using hcall
  refine ⟨(purged.entries.map Entry.member).toFinset.image f, ?_, fun q hq => ?_⟩
  · have hinj : Set.InjOn f ((purged.entries.map Entry.member).toFinset : Finset RateMember) := by
      intro m hm m' hm' he
      obtain ⟨d, hd, hdm, -⟩ := hf m hm
      obtain ⟨d', hd', hdm', -⟩ := hf m' hm'
      rw [he, hd', Option.some.injEq] at hd
      rw [← hdm, ← hdm', hd]
    rw [Finset.card_image_of_injOn hinj, ZSet.card_members]
    exact hfull
  · obtain ⟨m, hm, rfl⟩ := Finset.mem_image.mp hq
    obtain ⟨d, hd, -, hw⟩ := hf m hm
    exact ⟨d, hd, hw⟩

private theorem FullInv.step {s s' : RateState} {l : RateLabel} (hi : FullInv userId bucket limit windowS s)
    (hc : ClientErrors l ∧ InStrictOrder s l ∧ CountsAllowed userId bucket windowS s l)
    (h : (rateLimiter userId bucket limit windowS).step s l = some s') :
    FullInv userId bucket limit windowS s' := by
  obtain ⟨hl, horder, hcounts⟩ := hc
  obtain ⟨hst, heff⟩ := rate_step hi.stages hl h
  cases heff with
  | quiet hworld hgr hrej =>
    refine ⟨hst, ?_, ?_, ?_, fun q c hq => ?_⟩
    · rw [hgr, hworld]; exact hi.past
    · rw [hworld]; exact hi.epoch
    · rw [hworld]; exact hi.nonneg
    · rw [hgr]; exact hi.full q c (hrej q c hq)
  | pipeline pid c hp hkey htimes hgr hrej =>
    have hlt := horder c hp
    have hepoch := hi.epoch
    -- who was granted a slot keeps it
    have hgrow : ∀ q d, granted s q = some d → granted s' q = some d := by
      intro q d hd
      rcases hgr with hgr | ⟨hpid, hgr, -⟩
      · rw [hgr]; exact hd
      · have hne : q ≠ pid := fun he => by simp [he, hpid] at hd
        rw [hgr, Function.update_of_ne hne]
        exact hd
    refine ⟨hst, fun q d hd => ?_, ?_, ?_, fun q d hq => ?_⟩
    · have hold : d = c ∨ granted s q = some d := by
        rcases hgr with hgr | ⟨hpid, hgr, -⟩
        · exact Or.inr (hgr ▸ hd)
        · rw [hgr, Function.update_apply] at hd
          split at hd
          · exact Or.inl (Option.some.inj hd).symm
          · exact Or.inr hd
      rw [htimes.1]
      rcases hold with rfl | hd
      · exact ⟨by linarith, le_refl _⟩
      · have := hi.past q d hd
        exact ⟨this.1, by linarith⟩
    · rw [htimes.1]; linarith
    · rw [hkey]
      intro e he
      simp only [RateKey.after, ZSet.mem_zadd, ZSet.mem_zremrangebyscore] at he
      rcases he with rfl | ⟨⟨he, -⟩, -⟩
      · simp only; linarith
      · exact hi.nonneg e he
    · -- a call that is rejected now has counted a full window
      rcases hrej q d hq with hq | ⟨rfl, hfull⟩
      · exact (hi.full q d hq).mono hgrow
      · exact (full_of_count hi hlt (hcounts d hp) hfull).mono hgrow
  | rollback c hp hkey htimes hgr hrej =>
    refine ⟨hst, ?_, ?_, ?_, fun q d hq => ?_⟩
    · rw [hgr, htimes.1]; exact hi.past
    · rw [htimes.1]; exact hi.epoch
    · rw [hkey]
      exact fun e he => hi.nonneg e (ZSet.mem_zremrangebyscore.mp he).1
    · rw [hgr]; exact hi.full q d (hrej q d hq)
  | expire d hkey htimes hgr hrej =>
    refine ⟨hst, ?_, ?_, ?_, fun q d hq => ?_⟩
    · rw [hgr, htimes.1]; exact hi.past
    · rw [htimes.1]; exact hi.epoch
    · rcases hkey with hkey | ⟨-, hkey⟩
      · rw [hkey]; exact hi.nonneg
      · rw [hkey]; simp
    · rw [hgr]; exact hi.full q d (hrej q d hq)

private theorem fullInv_init : FullInv userId bucket limit windowS (idle RateStore.init) where
  stages := by simp [AtStages, idle]
  past := fun q d hd => by simp [granted, idle] at hd
  epoch := le_refl _
  nonneg := by simp [idle, RateStore.init]
  full := fun q c ⟨p, hp, _⟩ => by simp [idle] at hp

private theorem rejectedIn_of_refused {s : RateState} {pid : Nat} {c : RateCall}
    (h : refused s pid = some c) : RejectedIn userId bucket windowS s pid c := by
  unfold refused at h
  split at h
  · rename_i d r hp
    cases h
    exact ⟨_, hp, Or.inr (Or.inr ⟨r, rfl⟩)⟩
  · cases h

/-- In every run from the empty store whose pipelines run in order and count entries of allowed calls
only, a call is rejected only when `limit` earlier calls of its window were allowed. -/
theorem rejected_of_full (userId bucket : String) (limit windowS : Nat) {ls : List RateLabel}
    {s : RateState} (hm : (rateLimiter userId bucket limit windowS).Meets
      (fun s l => ClientErrors l ∧ InStrictOrder s l ∧ CountsAllowed userId bucket windowS s l)
      (idle RateStore.init) ls)
    (hr : (rateLimiter userId bucket limit windowS).run (idle RateStore.init) ls = some s) {pid : Nat}
    {c : RateCall} (hrej : refused s pid = some c) : FullBefore limit windowS (granted s) c :=
  (run_induct (fun _ _ _ hi hc h => FullInv.step hi hc h) fullInv_init hm hr).full pid c
    (rejectedIn_of_refused hrej)

/-- Two calls, the second of which finds the limit used up. -/
def fullWindowRun : List RateLabel :=
  [.start 0 ⟨100, 0⟩, .call 0 .ok, .start 1 ⟨101, 1⟩, .call 1 .ok, .call 1 .ok, .call 1 .ok]

theorem rejected_of_full_two :
    ∃ s, (rateLimiter "u" "chat" 1 60).run (idle RateStore.init) fullWindowRun = some s ∧
      refused s 1 = some ⟨101, 1⟩ ∧ FullBefore 1 60 (granted s) ⟨101, 1⟩ := by
  have hg : ((rateLimiter "u" "chat" 1 60).run (idle RateStore.init) fullWindowRun).map (refused · 1) =
      some (some ⟨101, 1⟩) := by decide +kernel
  obtain ⟨s, hs, href⟩ := Option.map_eq_some_iff.mp hg
  refine ⟨s, hs, href, rejected_of_full "u" "chat" 1 60 ?_ hs href⟩
  refine meets_of_below 2 (fun s l => ClientErrors l ∧ InStrictOrder s l ∧
    ∀ c ∈ pipelineOf s l, ∀ e ∈ (s.world.keys (rlKey "chat" "u")).zset.entries, c.now - (60 : Nat) < e.score →
      ∃ q < 2, (granted s q).any fun d => e = ⟨d.member, d.now⟩) ?_ (idle_below _ _) (by decide +kernel)
  rintro s l - ⟨hl, ho, hp⟩
  refine ⟨hl, ho, fun c hc e he hw => ?_⟩
  obtain ⟨q, -, hq⟩ := hp c hc e he hw
  obtain ⟨d, hd, hed⟩ := (Option.any_eq_true _ _).mp hq
  exact ⟨q, d, hd, by simpa using hed⟩

/-- Three calls, the last of which runs its pipeline before the second has removed its entry. -/
def pendingRollbackRun : List RateLabel :=
  [.start 0 ⟨1, 0⟩, .call 0 .ok, .start 1 ⟨10, 1⟩, .call 1 .ok, .start 2 ⟨23 / 2, 2⟩, .call 2 .ok,
    .call 2 .ok, .call 2 .ok]

/-- A call can be rejected although none of its window was allowed: it counts the entry of another
rejected call. -/
theorem rejected_of_rejected :
    (rateLimiter "u" "chat" 1 10).Meets (fun s l => ClientErrors l ∧ InStrictOrder s l) (idle RateStore.init)
      pendingRollbackRun ∧
    ∃ s, (rateLimiter "u" "chat" 1 10).run (idle RateStore.init) pendingRollbackRun = some s ∧
      refused s 2 = some ⟨23 / 2, 2⟩ ∧ ¬ FullBefore 1 10 (granted s) ⟨23 / 2, 2⟩ := by
  refine ⟨by decide +kernel, ?_⟩
  have hg : ((rateLimiter "u" "chat" 1 10).run (idle RateStore.init) pendingRollbackRun).map
      (fun s => (refused s 2, granted s 0, granted s 1, granted s 2)) =
        some (some ⟨23 / 2, 2⟩, some ⟨1, 0⟩, none, none) := by decide +kernel
  obtain ⟨s, hs, hg⟩ := Option.map_eq_some_iff.mp hg
  simp only [Prod.mk.injEq] at hg
  obtain ⟨href, h0, h1, h2⟩ := hg
  refine ⟨s, hs, href, ?_⟩
  rintro ⟨F, hF, hall⟩
  obtain ⟨q, hq⟩ := Finset.card_pos.mp hF
  obtain ⟨d, hd, hlt, -⟩ := hall q hq
  have hlt3 : q < 3 := granted_lt ((idle_below 3 _).run (by decide +kernel) hs) hd
  rcases (by omega : q = 0 ∨ q = 1 ∨ q = 2) with rfl | rfl | rfl
  · rw [h0, Option.some.injEq] at hd
    subst hd
    norm_num at hlt
  · rw [h1] at hd
    cases hd
  · rw [h2] at hd
    cases hd

end LegalRag
