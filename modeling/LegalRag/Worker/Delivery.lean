import LegalRag.Worker.Queue

/-!
# Which runs deliver their jobs

`broker_step` says what a step does to the broker: nothing, one more job in the default queue of the pool,
or a step of the worker.

* `delivered_of_same_queue`: if the worker polls the queue of the pool, every run delivers every job;
* `delivered_iff`: with the names as they are configured, a run delivers every job only as long as it
enqueues none.
-/

namespace LegalRag

open Calls Service

/-! ### What a step does to the broker -/

/-- A call of the API leaves the broker alone, or puts one job into the default queue of its pool. -/
theorem apiReply_broker (rid : Nat) (agent : AgentReplies) (o : ApiCalls.Op) (w : ApiWorld) :
    ((apiReply rid agent o w).2.broker = w.broker ∧ ∀ function arg, o = .enqueueJob function arg →
      w.arqPool = none) ∨
      ∃ function arg pool, o = .enqueueJob function arg ∧ w.arqPool = some pool ∧
        (apiReply rid agent o w).2.broker = w.broker.enqueue pool.defaultQueueName
          ⟨w.nextUuid, function, arg⟩ := by
  cases o with
  | enqueueJob function arg =>
    cases h : w.arqPool with
    | none => left; simp [apiReply, h]
    | some pool => right; exact ⟨function, arg, pool, rfl, rfl, by simp [apiReply, h]⟩
  | createDocument ref d => left; refine ⟨?_, nofun⟩; simp only [apiReply]; split <;> rfl
  | commit ref => left; refine ⟨?_, nofun⟩; simp only [apiReply]; split <;> rfl
  | _ => left; exact ⟨rfl, nofun⟩

/-- The pool of the API process is made by `create_pool`. -/
private theorem apiReply_pool (rid : Nat) (agent : AgentReplies) (o : ApiCalls.Op) (w : ApiWorld) :
    (apiReply rid agent o w).2.arqPool = w.arqPool ∨
      (apiReply rid agent o w).2.arqPool = some (w.arqPool.getD createPool) := by
  cases o with
  | getArqPool => right; rfl
  | enqueueJob function arg =>
    left
    simp only [apiReply]
    split <;> simp_all
  | createDocument ref d => left; simp only [apiReply]; split <;> rfl
  | commit ref => left; simp only [apiReply]; split <;> rfl
  | _ => left; rfl

@[simp] theorem Broker.enqueue_queues_self (name : String) (j : Job) (b : Broker) :
    (b.enqueue name j).queues name = b.queues name ++ [j] := Function.update_self _ _ _

theorem Broker.enqueue_queues_of_ne {q name : String} (h : q ≠ name) (j : Job) (b : Broker) :
    (b.enqueue name j).queues q = b.queues q := Function.update_of_ne h _ _

/-- The pool of the API process, if there is one, is made by `create_pool`. -/
def PoolMade (s : ApiState) : Prop := s.world.arqPool = none ∨ s.world.arqPool = some createPool

/-- The effect of a step, from the point of view of the broker. -/
inductive BrokerEffect (worker : WorkerSettings) (s s' : ApiState) (l : ApiLabel) : Prop
  | quiet (broker : s'.world.broker = s.world.broker) (returned : returnedJob s l = none)
  | enqueue (j : Job) (broker : s'.world.broker = s.world.broker.enqueue createPool.defaultQueueName j)
      (returned : returnedJob s l = none ∨ returnedJob s l = some j)
  | worker (e : WorkerStep) (step : e.step worker s.world = some s'.world) (returned : returnedJob s l = none)

variable {cfg : ApiSettings} {worker : WorkerSettings}

theorem handle_eq (cfg : ApiSettings) (worker : WorkerSettings) (rid : Nat) (req : ApiRequest) :
    ∃ agent, (apiService cfg worker).handle rid req = apiHandler rid agent := by
  cases req with
  | upload c => exact ⟨.none, rfl⟩
  | chat c agent => exact ⟨agent, rfl⟩

/-- What the outcome of a call says about the job it enqueues. -/
private theorem returnedJob_call {s : ApiState} {pid : Nat} {req : ApiRequest} {o : ApiCalls.Op}
    {k : Except ApiErr (ApiCalls.Resp o) → Prog ApiCalls ApiErr ApiReply}
    (hproc : s.procs pid = some ⟨req, .call o k⟩) (out : Outcome ApiErr) :
    returnedJob s (.call pid out) = none ∨ out = .ok ∧ ∃ function arg, o = .enqueueJob function arg ∧
      s.world.arqPool.isSome ∧ returnedJob s (.call pid out) = some ⟨s.world.nextUuid, function, arg⟩ := by
  cases out with
  | ok =>
    cases o with
    | enqueueJob function arg =>
      cases hpool : s.world.arqPool with
      | none => exact Or.inl (by simp [returnedJob, hproc, hpool])
      | some pool => exact Or.inr ⟨rfl, function, arg, rfl, rfl, by simp [returnedJob, hproc, hpool]⟩
    | _ => exact Or.inl (by simp [returnedJob, hproc])
  | _ => exact Or.inl rfl

theorem broker_step {s s' : ApiState} {l : ApiLabel} (hp : PoolMade s)
    (h : (apiService cfg worker).step s l = some s') : PoolMade s' ∧ BrokerEffect worker s s' l := by
  rcases step_cases h with ⟨pid, r, rfl, -, rfl⟩ | ⟨pid, out, req, o, k, rfl, hproc, rfl⟩ |
    ⟨e, w, rfl, hw, rfl⟩
  · exact ⟨hp, .quiet rfl rfl⟩
  · obtain ⟨agent, hh⟩ := handle_eq cfg worker pid req
    rw [hh]
    have hworld := Outcome.world_eq (apiHandler pid agent) o s.world out
    have hret := returnedJob_call hproc out
    refine ⟨?_, ?_⟩
    · have hpool := apiReply_pool pid agent o s.world
      unfold PoolMade at hp ⊢
      rw [resume_world]
      rcases hworld with hw | hw <;> rw [hw]
      · exact hp
      · rcases hpool with h | h <;> rcases hp with hp | hp <;> simp_all [apiHandler, ApiWorld.tick]
    rcases apiReply_broker pid agent o s.world with ⟨hb, hpool⟩ | ⟨function, arg, pool, rfl, hpool, hb⟩
    · refine .quiet ?_ ?_
      · rw [resume_world]
        rcases hworld with hw | hw <;> rw [hw]
        exact hb
      · rcases hret with hret | ⟨-, function, arg, ho, hsome, -⟩
        · exact hret
        · simp [hpool function arg ho] at hsome
    · obtain rfl : pool = createPool := by rcases hp with hp | hp <;> simp_all
      rcases hret with hret | ⟨rfl, function', arg', ho, -, hret⟩
      · -- the call fails, before or after the job was put into the queue
        rcases hworld with hw | hw
        · exact .quiet (by rw [resume_world, hw]) hret
        · exact .enqueue _ (by rw [resume_world, hw]; exact hb) (Or.inl hret)
      · cases ho
        exact .enqueue _ (by rw [resume_world]; exact hb) (Or.inr hret)
  · have hb : w.arqPool = s.world.arqPool := by
      simp only [apiService, WorkerStep.step, Option.map_eq_some_iff] at hw
      obtain ⟨b, -, rfl⟩ := hw
      rfl
    exact ⟨by unfold PoolMade at hp ⊢; rw [hb]; exact hp, .worker e hw rfl⟩

/-! ### One queue name -/

/-- A job that has been enqueued is still in the worker's queue, or has been picked up. -/
def Held (worker : WorkerSettings) (s : ApiState) (j : Job) : Prop :=
  j ∈ s.world.broker.queues worker.queueName ∨ j ∈ s.world.broker.picked

private theorem Held.step {s s' : ApiState} {l : ApiLabel}
    (hname : worker.queueName = createPool.defaultQueueName) (heff : BrokerEffect worker s s' l) {j : Job}
    (hj : Held worker s j ∨ returnedJob s l = some j) : Held worker s' j := by
  unfold Held at hj ⊢
  cases heff with
  | quiet hb hret => simpa [hb, hret] using hj
  | enqueue j' hb hret =>
    rw [hb, hname, Broker.enqueue_queues_self, List.mem_append, List.mem_singleton]
    rw [hname] at hj
    rcases hj with (hj | hj) | hj
    · exact Or.inl (Or.inl hj)
    · exact Or.inr hj
    · rcases hret with hret | hret <;> simp_all
  | worker e hstep hret =>
    have hj : Held worker s j := by simpa [Held, hret] using hj
    simp only [WorkerStep.step, Option.map_eq_some_iff] at hstep
    obtain ⟨b, hb, hw⟩ := hstep
    rw [← hw]
    cases e with
    | finish i =>
      simp only [Broker.finish, Option.ite_none_right_eq_some, Option.some.injEq] at hb
      obtain ⟨-, rfl⟩ := hb
      exact hj
    | poll i =>
      simp only [Broker.poll, Option.ite_none_right_eq_some, Option.map_eq_some_iff] at hb
      obtain ⟨-, j', hget, rfl⟩ := hb
      simp only [Function.update_self, List.mem_cons]
      rcases hj with hj | hj
      · obtain ⟨n, hn⟩ := List.mem_iff_getElem?.mp hj
        by_cases hni : n = i
        · subst hni
          simp_all
        · exact Or.inl (List.mem_eraseIdx_iff_getElem?.mpr ⟨n, hni, hn⟩)
      · exact Or.inr (Or.inr hj)

private theorem held_of_run {s t : ApiState} {ls : List ApiLabel}
    (hname : worker.queueName = createPool.defaultQueueName) (hp : PoolMade s)
    (h : (apiService cfg worker).run s ls = some t) {j : Job}
    (hj : Held worker s j ∨ j ∈ returnedJobs cfg worker s ls) : Held worker t j := by
  induction ls generalizing s with
  | nil =>
    simp only [run, Option.some.injEq] at h
    simpa [returnedJobs, h] using hj
  | cons l ls ih =>
    obtain ⟨u, hu, h⟩ := run_cons h
    obtain ⟨hp', heff⟩ := broker_step hp hu
    refine ih hp' h ?_
    simp only [returnedJobs, hu, List.mem_append, Option.mem_toList] at hj
    rcases hj with hj | hj | hj
    · exact Or.inl (Held.step hname heff (Or.inl hj))
    · exact Or.inl (Held.step hname heff (Or.inr hj))
    · exact Or.inr hj

/-- If the worker polls the queue of the pool, every run delivers all its jobs. -/
theorem delivered_of_same_queue (cfg : ApiSettings) {worker : WorkerSettings}
    (hname : worker.queueName = createPool.defaultQueueName) (w : ApiWorld) (ls : List ApiLabel) :
    Delivers cfg worker (idle w.start) ls := by
  intro t ht hd j hj
  rcases held_of_run hname (Or.inl rfl) ht (Or.inr hj) with h | h
  · simp [hd.1] at h
  · exact h

/-! ### The queue names as they are configured -/

/-- The worker has seen no job, and its queue is empty. -/
structure Idle (s : ApiState) : Prop where
  pool : PoolMade s
  queue : s.world.broker.queues workerSettings.queueName = []
  running : s.world.broker.running = []
  picked : s.world.broker.picked = []

private theorem Idle.step {s s' : ApiState} {l : ApiLabel} (hi : Idle s)
    (h : (apiService cfg workerSettings).step s l = some s') : Idle s' := by
  obtain ⟨hp, heff⟩ := broker_step hi.pool h
  cases heff with
  | quiet hb _ =>
    exact ⟨hp, by rw [hb]; exact hi.queue, by rw [hb]; exact hi.running, by rw [hb]; exact hi.picked⟩
  | enqueue j hb _ =>
    have hne : workerSettings.queueName ≠ createPool.defaultQueueName := by decide
    refine ⟨hp, ?_, by rw [hb]; exact hi.running, by rw [hb]; exact hi.picked⟩
    rw [hb, Broker.enqueue_queues_of_ne hne]
    exact hi.queue
  | worker e hstep _ =>
    -- there is nothing to pick up and nothing to finish
    cases e with
    | poll i => simp [WorkerStep.step, Broker.poll, hi.queue] at hstep
    | finish i => simp [WorkerStep.step, Broker.finish, hi.running] at hstep

private theorem idle_start (w : ApiWorld) : Idle (idle w.start) := ⟨Or.inl rfl, rfl, rfl, rfl⟩

/-- A step in which a job is enqueued is one the service can make. -/
private theorem step_of_returnedJob (cfg : ApiSettings) (worker : WorkerSettings) {s : ApiState}
    {l : ApiLabel} {j : Job}
    (h : returnedJob s l = some j) : ∃ s', (apiService cfg worker).step s l = some s' := by
  unfold returnedJob at h
  split at h
  · split at h
    · rename_i hproc
      exact ⟨_, by simp only [step, hproc]; rfl⟩
    · cases h
  · cases h

/-- A run meets `EnqueuesNothing` when no job is enqueued in it. -/
private theorem meets_iff_returnedJobs (s : ApiState) (ls : List ApiLabel) :
    (apiService cfg worker).Meets EnqueuesNothing s ls ↔ returnedJobs cfg worker s ls = [] := by
  induction ls generalizing s with
  | nil => exact iff_of_true trivial rfl
  | cons l ls ih =>
    simp only [Meets, returnedJobs, EnqueuesNothing, List.append_eq_nil_iff, Option.toList_eq_nil_iff]
    refine and_congr_right fun _ => ?_
    cases hs : (apiService cfg worker).step s l with
    | none => simp
    | some t => simpa using ih t

/-- No job is enqueued in a run if none is in the beginnings that it gets through. -/
private theorem returnedJobs_eq_nil {s : ApiState} {ls : List ApiLabel}
    (h : ∀ ls₁ t, ls₁ <+: ls → (apiService cfg worker).run s ls₁ = some t →
      returnedJobs cfg worker s ls₁ = []) : returnedJobs cfg worker s ls = [] := by
  induction ls generalizing s with
  | nil => rfl
  | cons l ls ih =>
    have hl : returnedJob s l = none := by
      by_contra hne
      obtain ⟨j, hj⟩ := Option.ne_none_iff_exists'.mp hne
      obtain ⟨t, ht⟩ := step_of_returnedJob cfg worker hj
      have := h [l] t (by simp) (by simp [run, ht])
      simp [returnedJobs, hj] at this
    rw [returnedJobs, hl]
    cases hs : (apiService cfg worker).step s l with
    | none => rfl
    | some t =>
      refine ih fun ls₁ u hpre hu => ?_
      have := h (l :: ls₁) u (List.cons_prefix_cons.mpr ⟨rfl, hpre⟩) (by simp [run, hs, hu])
      simpa [returnedJobs, hs, hl] using this

/-- With the queue names as they are configured, every state of a run has all its jobs delivered exactly
when the run enqueues none: the worker never sees a job. -/
theorem delivered_iff (cfg : ApiSettings) (w : ApiWorld) (ls : List ApiLabel) :
    (∀ ls₁, ls₁ <+: ls → Delivers cfg workerSettings (idle w.start) ls₁) ↔
      (apiService cfg workerSettings).Meets EnqueuesNothing (idle w.start) ls := by
  rw [meets_iff_returnedJobs]
  constructor
  · refine fun h => returnedJobs_eq_nil fun ls₁ t hpre ht =>
      List.eq_nil_iff_forall_not_mem.mpr fun j hj => ?_
    have hi : Idle t := run_induct (fun _ _ _ hi _ hs => Idle.step hi hs) (idle_start w) (meets_true _ ls₁) ht
    have := h ls₁ hpre t ht ⟨hi.queue, hi.running⟩ j hj
    simp [hi.picked] at this
  · rintro h ls₁ ⟨ls₂, rfl⟩ t ht - j hj
    have hm := (meets_iff_returnedJobs _ _).mpr h
    have := (meets_iff_returnedJobs _ _).mp (meets_append hm ht).1
    simp [this] at hj

/-- An upload of one file. -/
def uploadRun : List ApiLabel :=
  .start 0 (.upload ⟨1, 1, [⟨some "luat.pdf", some "application/pdf", [37]⟩]⟩) :: List.replicate 8
    (.call 0 .ok)

/-- Settings of the API. -/
def uploadCfg : ApiSettings := ⟨⟨20, 86400⟩, ⟨50, 20, ["application/pdf"]⟩, fun _ => "5a"⟩

/-- The job of an uploaded document waits in a queue that no worker reads. -/
theorem not_delivered : ¬ Delivers uploadCfg workerSettings (idle ApiWorld.blank.start) uploadRun := by
  have hg : ((apiService uploadCfg workerSettings).run (idle ApiWorld.blank.start) uploadRun).map
      (fun s => (s.world.broker.queues "default", s.world.broker.running, s.world.broker.picked)) =
        some ([], [], []) := by decide +kernel
  obtain ⟨s, hs, hg⟩ := Option.map_eq_some_iff.mp hg
  simp only [Prod.mk.injEq] at hg
  intro h
  have hj : returnedJobs uploadCfg workerSettings (idle ApiWorld.blank.start) uploadRun =
      [⟨3, "process_document", "2"⟩] := by decide +kernel
  have := h s hs ⟨hg.1, hg.2.1⟩ ⟨3, "process_document", "2"⟩ (by simp [hj])
  simp [hg.2.2] at this

end LegalRag
