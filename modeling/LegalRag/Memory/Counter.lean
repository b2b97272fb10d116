import LegalRag.Api.SessionPhases

/-!
# The counter of a conversation

`add_message` writes `message_count` as one more than the count in the session's own copy of the row.  So
the counter is the number of messages in every state of a run exactly when no session commits a copy that
has gone stale, that is, when nobody else has committed a message of the conversation since the session
loaded the row (`counted_iff`).
-/

namespace LegalRag

open Calls Prog Service

/-- The counter of the conversation is the number of its messages. -/
def Counted (convId : Uuid) (w : ApiWorld) : Prop :=
  ∀ row ∈ w.conversations, row.id = convId → row.messageCount = w.messages.countP (·.conversationId = convId)

/-- The session whose transaction is committed in a step. -/
def committing (s : ApiState) : ApiLabel → Option (Nat × SessionRef)
  | .call pid out =>
    match s.procs pid with
    | some ⟨_, .call (.commit ref) _⟩ => if out.applied then some (pid, ref) else none
    | _ => none
  | _ => none

/-- The copy of the row that a session commits is the current one, but for the session's own messages. -/
def CopyCurrent (convId : Uuid) (s : ApiState) (l : ApiLabel) : Prop :=
  ∀ x ∈ committing s l, ∀ c ∈ (s.world.sessions x.1 x.2).conv, c.id = convId →
    ∀ row ∈ s.world.conversations, row.id = convId →
      c.messageCount = row.messageCount + (s.world.sessions x.1 x.2).newMessages.length

instance (convId : Uuid) (s : ApiState) (l : ApiLabel) : Decidable (CopyCurrent convId s l) :=
  inferInstanceAs (Decidable (∀ x ∈ committing s l, ∀ c ∈ (s.world.sessions x.1 x.2).conv, c.id = convId →
    ∀ row ∈ s.world.conversations, row.id = convId → _))

variable {cfg : ApiSettings} {worker : WorkerSettings} {convId : Uuid}

private theorem copyCurrent_of_none {s : ApiState} {l : ApiLabel} (h : committing s l = none) :
    CopyCurrent convId s l := by
  intro x hx
  rw [h] at hx
  cases hx

/-- The call that commits. -/
private theorem committing_call {s : ApiState} {pid : Nat} {out : Outcome ApiErr} {req : ApiRequest}
    {o : ApiOp} {k : Except ApiErr (ApiCalls.Resp o) → Api ApiReply}
    (hproc : s.procs pid = some ⟨req, .call o k⟩) {x : Nat × SessionRef}
    (hx : x ∈ committing s (.call pid out)) : ∃ ref, o = .commit ref ∧ x = (pid, ref) := by
  unfold committing at hx
  simp only [hproc] at hx
  cases o with
  | commit ref =>
    refine ⟨ref, rfl, ?_⟩
    by_cases h : out.applied = true
    · simpa [h] using hx.symm
    · simp [h] at hx
  | _ => cases hx

/-- The condition on a commit. -/
private theorem copyCurrent_commit {s : ApiState} {l : ApiLabel} {pid : Nat} {ref : SessionRef}
    {conv : Conversation} {m : Message} (h : committing s l = some (pid, ref))
    (hcontent : (s.world.sessions pid ref).content = (some conv, [m], [])) :
    CopyCurrent convId s l ↔
      (conv.id = convId → ∀ row ∈ s.world.conversations, row.id = convId →
        conv.messageCount = row.messageCount + 1) := by
  simp only [Session.content, Prod.mk.injEq] at hcontent
  obtain ⟨hconv, hms, -⟩ := hcontent
  unfold CopyCurrent
  rw [h]
  constructor
  · intro hc hid row hrow hrid
    have hcur := hc (pid, ref) rfl conv hconv hid row hrow hrid
    rw [hms] at hcur
    exact hcur
  · intro hc x hx c hcopy hid row hrow hrid
    obtain rfl := Option.some.inj hx
    obtain rfl : conv = c := Option.some.inj (hconv.symm.trans hcopy)
    rw [hms]
    exact hc hid row hrow hrid

private theorem countP_append_singleton (ms : List Message) (m : Message) :
    (ms ++ [m]).countP (·.conversationId = convId) =
    ms.countP (·.conversationId = convId) + if m.conversationId = convId then 1 else 0 := by
  rw [List.countP_append, List.countP_singleton]
  by_cases h : m.conversationId = convId <;> simp [h]

/-- A commit of another conversation. -/
private theorem counted_commit_of_ne {w w' : ApiWorld} {conv : Conversation} {m : Message}
    (hm : m.conversationId = conv.id) (hmessages : w'.messages = w.messages ++ [m])
    (hconv : w'.conversations = setCounts (some conv) w.conversations)
    (hne : conv.id ≠ convId) (hc : Counted convId w) : Counted convId w' := by
  have hcount : w'.messages.countP (·.conversationId = convId) =
      w.messages.countP (·.conversationId = convId) := by
    rw [hmessages, countP_append_singleton, if_neg (hm ▸ hne), Nat.add_zero]
  unfold Counted
  intro row hrow hid
  rw [hconv] at hrow
  obtain ⟨row', hrow', rfl⟩ := List.mem_map.mp hrow
  by_cases h : row'.id = conv.id
  · rw [if_pos h] at hid
    exact absurd (h.symm.trans hid) hne
  · rw [if_neg h] at hid ⊢
    rw [hcount]
    exact hc row' hrow' hid

/-- A commit of the conversation keeps the counter right if and only if the copy is current. -/
private theorem counted_commit_iff {w w' : ApiWorld} {conv : Conversation} {m : Message}
    (hm : m.conversationId = conv.id) (hmessages : w'.messages = w.messages ++ [m])
    (hconv : w'.conversations = setCounts (some conv) w.conversations) (hc : Counted conv.id w) :
    Counted conv.id w' ↔
      ∀ row ∈ w.conversations, row.id = conv.id → conv.messageCount = row.messageCount + 1 := by
  have hcount : w'.messages.countP (·.conversationId = conv.id) =
      w.messages.countP (·.conversationId = conv.id) + 1 := by
    rw [hmessages, countP_append_singleton, if_pos hm]
  constructor
  · intro h row hmem hid
    have hmem' : { row with messageCount := conv.messageCount } ∈ w'.conversations := by
      rw [hconv]
      exact List.mem_map.mpr ⟨row, hmem, if_pos hid⟩
    have hnew : conv.messageCount = w'.messages.countP (·.conversationId = conv.id) :=
      h { row with messageCount := conv.messageCount } hmem' hid
    rw [hnew, hcount, hc row hmem hid]
  · intro h row' hmem' hid'
    rw [hconv] at hmem'
    obtain ⟨row, hmem, rfl⟩ := List.mem_map.mp hmem'
    by_cases hid : row.id = conv.id
    · rw [if_pos hid, hcount, ← hc row hmem hid]
      exact h row hmem hid
    · rw [if_neg hid] at hid'
      exact absurd hid' hid

/-- A step keeps the counter right if and only if no stale copy is committed in it. -/
private theorem counted_step {s s' : ApiState} {l : ApiLabel} (hi : HoldsInv cfg s)
    (hc : Counted convId s.world) (h : (apiService cfg worker).step s l = some s') :
    Counted convId s'.world ↔ CopyCurrent convId s l := by
  rcases step_cases h with ⟨pid, r, rfl, -, rfl⟩ | ⟨pid, out, req, o, k, rfl, hproc, rfl⟩ |
    ⟨e, w, rfl, hw, rfl⟩
  · exact iff_of_true hc (copyCurrent_of_none rfl)
  · obtain ⟨φ, ⟨ha, -⟩, hfits⟩ := hi pid _ hproc
    have heff := @request_countEffect cfg worker req pid φ s.world o ha hfits
    rw [resume_world]
    by_cases happlied : out.applied = true
    · rw [Outcome.world_of_applied happlied]
      cases heff with
      | same hmessages hconv hquiet =>
        refine iff_of_true ?_ ?_
        · unfold Counted
          rw [hmessages, hconv]
          exact hc
        · intro x hx c hcopy
          obtain ⟨ref, rfl, rfl⟩ := committing_call hproc hx
          rw [hquiet ref rfl] at hcopy
          cases hcopy
      | commit ref conv m op content id messages conversations =>
        -- one message more, and the counter of the copy that the session holds
        subst op
        have hcommitting : committing s (.call pid out) = some (pid, ref) := by
          unfold committing
          simp only [hproc, if_pos happlied]
        have hcopy := @copyCurrent_commit convId s (.call pid out) pid ref conv m hcommitting content
        by_cases hid : conv.id = convId
        · subst hid
          rw [hcopy, counted_commit_iff id messages conversations hc]
          exact ⟨fun h' _ => h', fun h' => h' rfl⟩
        · refine iff_of_true (counted_commit_of_ne id messages conversations hid hc) ?_
          exact hcopy.mpr fun h' => absurd h' hid
    · rw [Outcome.world_of_not_applied (by simpa using happlied)]
      refine iff_of_true hc (copyCurrent_of_none ?_)
      unfold committing
      simp only [hproc]
      split
      · exact if_neg happlied
      · rfl
  · simp only [apiService, WorkerStep.step, Option.map_eq_some_iff] at hw
    obtain ⟨b, -, rfl⟩ := hw
    exact iff_of_true hc (copyCurrent_of_none rfl)

private theorem committing_of_no_step {s : ApiState} {l : ApiLabel}
    (h : (apiService cfg worker).step s l = none) : committing s l = none := by
  cases l with
  | start pid r => rfl
  | env e => rfl
  | call pid out =>
    simp only [step] at h
    unfold committing
    cases hproc : s.procs pid with
    | none => simp only [hproc]
    | some p =>
      obtain ⟨req, prog⟩ := p
      cases prog with
      | done r => simp only [hproc]
      | call o k =>
        rw [hproc] at h
        cases h

/-- From a state in which the counter is right and no request runs: the counter is right in every state of
a run exactly when no session commits a stale copy of the row in it. -/
theorem counted_iff (cfg : ApiSettings) (worker : WorkerSettings) (convId : Uuid) {w : ApiWorld}
    (hw : Counted convId w) (ls : List ApiLabel) :
    (∀ ls₁ t, ls₁ <+: ls → (apiService cfg worker).run (idle w) ls₁ = some t → Counted convId t.world) ↔
      (apiService cfg worker).Meets (CopyCurrent convId) (idle w) ls :=
  prefixes_iff_meets (fun _ _ _ hi h => holds_step hi h) (fun _ _ _ hi hc h => counted_step hi hc h)
    (fun _ _ h => copyCurrent_of_none (committing_of_no_step h)) (idle_obeys _ _ _ w) hw

/-- A conversation without messages. -/
def counterWorld : ApiWorld := { ApiWorld.blank with conversations := [⟨7, 1, none, 0⟩], nextUuid := 8 }

private theorem counted_counterWorld : Counted 7 counterWorld := by
  intro row hrow _
  obtain rfl := List.mem_singleton.mp hrow
  rfl

/-- A question in the conversation. -/
def counterAsk (text : String) : ApiRequest := .chat ⟨7, 1, 1, text⟩ .none

/-- One question after the other. -/
def inTurnRun : List ApiLabel :=
  .start 0 (counterAsk "a") :: List.replicate 12 (.call 0 .ok) ++
    .start 1 (counterAsk "b") :: List.replicate 10 (.call 1 .ok)

theorem counted_inTurnRun :
    (apiService uploadCfg workerSettings).Meets (CopyCurrent 7) (idle counterWorld) inTurnRun ∧
      ∀ ls₁ t, ls₁ <+: inTurnRun → (apiService uploadCfg workerSettings).run
        (idle counterWorld) ls₁ = some t → Counted 7 t.world := by
  have hmeets : (apiService uploadCfg workerSettings).Meets (CopyCurrent 7)
      (idle counterWorld) inTurnRun := by
    decide +kernel
  exact ⟨hmeets, (counted_iff uploadCfg workerSettings 7 counted_counterWorld inTurnRun).mpr hmeets⟩

/-- Two requests load the row, and then both insert and commit a question. -/
def lostUpdateRun : List ApiLabel :=
  [.start 0 (counterAsk "a"), .start 1 (counterAsk "b"), .call 0 .ok, .call 1 .ok] ++
    List.replicate 11 (.call 0 .ok) ++ List.replicate 9 (.call 1 .ok)

/-- Requests that overlap can leave the counter wrong for good. -/
theorem not_always_counted :
    ¬ ∀ (cfg : ApiSettings) (worker : WorkerSettings) (convId : Uuid)
      (w : ApiWorld) (ls : List ApiLabel) (t : ApiState), Counted convId w →
      (apiService cfg worker).run (idle w) ls = some t → t.Finished → Counted convId t.world := by
  intro h
  have hg : ((apiService uploadCfg workerSettings).run (idle counterWorld) lostUpdateRun).map
      (fun s => ((List.range 2).all s.isFinished, s.world.conversations,
        s.world.messages.countP (·.conversationId = 7))) =
        some (true, [⟨7, 1, none, 1⟩], 2) := by decide +kernel
  obtain ⟨t, ht, hg⟩ := Option.map_eq_some_iff.mp hg
  simp only [Prod.mk.injEq] at hg
  obtain ⟨hover, hrows, hcount⟩ := hg
  have hbelow : t.Below 2 := (idle_below 2 _).run (by decide) ht
  have hcounted := h uploadCfg workerSettings 7 counterWorld lostUpdateRun t counted_counterWorld ht
    (hbelow.finished hover)
  have hone : (1 : Nat) = t.world.messages.countP (·.conversationId = 7) := by
    refine hcounted ⟨7, 1, none, 1⟩ ?_ rfl
    rw [hrows]
    exact List.mem_singleton_self _
  rw [hcount] at hone
  cases hone

end LegalRag
