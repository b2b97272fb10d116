import LegalRag.Api.ChatPhases
import LegalRag.Worker.Ownership

/-!
# Documents that nobody will ingest

A document whose job was lost (the enqueueing failed after the commit, or the job itself failed) is still
found by its checksum, and an upload that finds its file enqueues nothing for it.  So a document that is
neither indexed nor queued nor being processed stays without a job, whatever is uploaded
(`not_reingested`), unless the request that inserted it is still running and comes to enqueue its job.
-/

namespace LegalRag

open Calls Prog Service

/-- The job ingests the document. -/
def Job.IsFor (j : Job) (d : Uuid) : Prop := j.function = "process_document" ∧ j.arg = toString d

/-- A job for the document waits in a queue. -/
def Queued (p : Platform) (d : Uuid) : Prop := ∃ queue, ∃ j ∈ p.api.broker.queues queue, j.IsFor d

/-- A job for the document runs, or an execution of one is not over. -/
def BeingProcessed (p : Platform) (d : Uuid) : Prop :=
  (∃ j ∈ p.api.broker.running, j.IsFor d) ∨ ∃ pid j o k, p.jobs pid = some ⟨j, .call o k⟩ ∧ j.docId = d

/-- A reply that inserts no row with the id `d`. -/
def OtherRow (d : Uuid) : (o : ApiOp) → o.Resp → Prop
  | .createDocument .., row => row.id ≠ d
  | .addMessage _ n, m => m.toNewMessage = n
  | _, _ => True

/-- Any call but the enqueueing of the document's job. -/
def NotIngesting (d : Uuid) (o : ApiOp) : Prop := o ≠ .enqueueJob "process_document" (toString d)

/-- The program does not enqueue the job of the document. -/
abbrev Skips {α : Type} (d : Uuid) (post : α → Prop) (p : Api α) : Prop :=
  p.Follows (OtherRow d) (NotIngesting d) post

/-- What is left of a request does not enqueue the job of the document. -/
def NeverEnqueues (d : Uuid) (p : Api ApiReply) : Prop := Skips d (fun _ => True) p

/-- The document is neither indexed nor queued nor being processed. -/
structure Dead (p : Platform) (row : Document) : Prop where
  stored : row ∈ p.api.documents
  unindexed : row.status ≠ .indexed
  unqueued : ¬ Queued p row.id
  unprocessed : ¬ BeingProcessed p row.id

/-- And no running request will still enqueue it. -/
structure Stranded (s : PlatformState) (row : Document) : Prop extends Dead s.world row where
  settled : ∀ pid proc, s.procs pid = some proc → NeverEnqueues row.id proc.prog

/-- A file of the request has the checksum of the document, and the tenant is the same. -/
def UploadCall.Matches (cfg : ApiSettings) (c : UploadCall) (row : Document) : Prop :=
  c.tenantId = row.tenantId ∧ ∃ up ∈ c.files, cfg.sha256 up.data = row.checksumSha256

/-- Once an upload that matches the document is answered, a job for the document is queued. -/
def Reingests (cfg : ApiSettings) (t : PlatformState) (pid : Nat) (c : UploadCall) (row : Document) : Prop :=
  c.Matches cfg row → (∃ r, t.procs pid = some ⟨.upload c, .done (.ok (.uploaded r))⟩) →
  Queued t.world row.id

/-! ### What requests enqueue -/

section Programs

variable {d : Uuid} {sha256 : List UInt8 → String} {cfg : UploadSettings} {c : UploadCall}

private theorem skips_call {α : Type} {o : ApiOp} {f : o.Resp → Api α} {post : α → Prop}
    (ho : NotIngesting d o) (hf : ∀ a, OtherRow d o a → Skips d post (f a)) : Skips d post (api o >>= f) :=
  follows_bind ((follows_perform ho).mono hf)

private theorem uploadFile_skips (up : UploadFile) :
    Skips d (fun x : Document × Bool => x.2 = true → x.1.id ≠ d) (uploadFile sha256 cfg c up) := by
  unfold uploadFile
  cases checkFile cfg up with
  | error e => trivial
  | ok mime =>
    refine skips_call nofun fun found _ => ?_
    cases found with
    | some existing =>
      intro h
      cases h
    | none =>
      refine skips_call nofun fun docId _ => ?_
      refine skips_call nofun fun _ _ => ?_
      refine skips_call nofun fun row hrow => ?_
      refine skips_call nofun fun _ _ => ?_
      intro _
      exact hrow

private theorem uploadAll_skips (ups : List UploadFile) :
    Skips d (fun x : List Document × List Uuid => d ∉ x.2) (uploadAll sha256 cfg c ups) := by
  induction ups with
  | nil =>
    intro h
    cases h
  | cons up ups ih =>
    refine follows_bind ((uploadFile_skips up).mono fun x hx => ?_)
    refine follows_bind (ih.mono fun y hy => ?_)
    obtain ⟨row, isNew⟩ := x
    cases isNew with
    | false => exact hy
    | true =>
      intro h
      rcases List.mem_cons.mp h with h | h
      · exact hx rfl h.symm
      · exact hy h

private theorem enqueueAll_skips {ids : List Uuid} (h : d ∉ ids) :
    Skips d (fun _ => True) (enqueueAll ids) := by
  induction ids with
  | nil => trivial
  | cons id ids ih =>
    rw [List.mem_cons, not_or] at h
    refine skips_call ?_ fun job _ => follows_bind ((ih h.2).mono fun _ _ => trivial)
    intro he
    simp only [ApiOp.enqueueJob.injEq, true_and] at he
    exact h.1 (uuid_str_inj he).symm

private theorem uploadFiles_skips : Skips d (fun _ => True) (uploadFiles sha256 cfg c) := by
  unfold uploadFiles
  split
  · trivial
  · split
    · trivial
    · refine skips_call nofun fun _ _ => ?_
      refine follows_bind ((uploadAll_skips c.files).mono fun x hx => ?_)
      refine skips_call nofun fun _ _ => ?_
      exact follows_bind ((enqueueAll_skips hx).mono fun _ _ => trivial)

private theorem chatStream_skips (s : BufferSettings) (c : ChatCall) :
    Skips d (fun _ => True) (chatStream s c) := by
  refine follows_of_obeys ?_ ?_ chatStream_phases
  · intro φ o ho he
    subst he
    cases φ with
    | answering =>
      rcases ho with ⟨h, -⟩ | ⟨n, -, h⟩
      · exact absurd h (by decide)
      · cases h
    | ended => exact absurd ho.1 (by decide)
    | _ => cases ho
  · intro φ o a ha
    cases φ <;> cases o <;> trivial

/-- No request starts with the intention to enqueue the document. -/
private theorem request_neverEnqueues (s : ApiSettings) (worker : WorkerSettings) (req : ApiRequest) :
    NeverEnqueues d ((apiService s worker).program req) := by
  cases req with
  | upload c =>
    show Skips d (fun _ => True) (ApiReply.uploaded <$> uploadFiles s.sha256 s.upload c)
    rw [map_eq_pure_bind]
    exact follows_bind (uploadFiles_skips.mono fun _ _ => trivial)
  | chat c agent =>
    show Skips d (fun _ => True) ((fun _ => ApiReply.streamed) <$> chatStream s.buffer c)
    rw [map_eq_pure_bind]
    exact follows_bind ((chatStream_skips s.buffer c).mono fun _ _ => trivial)

end Programs

/-! ### Runs -/

variable {cfg : ApiSettings} {worker : WorkerSettings} {lib : ChunkerLib}

/-- No job for the document is anywhere, and none will be. -/
structure Lost (s : PlatformState) (d : Uuid) : Prop where
  sound : Sound s.world
  known : d < s.world.api.nextUuid
  unqueued : ∀ queue, ∀ j ∈ s.world.api.broker.queues queue, ¬ j.IsFor d
  idle : ∀ j ∈ s.world.api.broker.running, ¬ j.IsFor d
  settled : ∀ pid proc, s.procs pid = some proc → NeverEnqueues d proc.prog

/-- What a call of the API replies is no row with the id of an older one. -/
private theorem otherRow_reply {d : Uuid} {w : ApiWorld} (hd : d < w.nextUuid) {rid : Nat}
    {agent : AgentReplies} {o : ApiOp}
    {a : o.Resp} (h : (apiHandler rid agent o w).1 = .ok a) : OtherRow d o a := by
  cases o with
  | createDocument ref n =>
    rcases createDocument_rows rid agent ref n w with ⟨⟨e, he⟩, -⟩ | ⟨row, hrow, -, hid, -⟩
    · rw [he] at h
      cases h
    · rw [hrow] at h
      obtain rfl := Except.ok.inj h
      show row.id ≠ d
      rw [hid]
      exact Nat.ne_of_gt hd
  | addMessage ref n =>
    obtain rfl := Except.ok.inj h
    rfl
  | _ => trivial

private theorem uuid_rows {rid : Nat} {w w' : ApiWorld} {o : ApiOp} (h : RowsEffect rid w w' o) :
    w.nextUuid ≤ w'.nextUuid := by
  cases h with
  | same rows uuid => exact uuid
  | insert ref n d new id rows uuid =>
    exact Nat.le_of_lt (Nat.lt_of_lt_of_eq (Nat.lt_succ_self _) uuid.symm)
  | commit ref rows uuid => exact Nat.le_of_eq uuid.symm
  | drop ref rows uuid => exact Nat.le_of_eq uuid.symm

/-- A call that does not enqueue the job leaves the queues without it. -/
private theorem unqueued_call {d : Uuid} {w : ApiWorld} {rid : Nat} {agent : AgentReplies} {o : ApiOp}
    (ho : NotIngesting d o) (hq : ∀ queue, ∀ j ∈ w.broker.queues queue, ¬ j.IsFor d)
    (hi : ∀ j ∈ w.broker.running, ¬ j.IsFor d) :
    (∀ queue, ∀ j ∈ (apiHandler rid agent o w).2.broker.queues queue, ¬ j.IsFor d) ∧
      ∀ j ∈ (apiHandler rid agent o w).2.broker.running, ¬ j.IsFor d := by
  show (∀ queue, ∀ j ∈ (apiReply rid agent o w).2.broker.queues queue, ¬ j.IsFor d) ∧
    ∀ j ∈ (apiReply rid agent o w).2.broker.running, ¬ j.IsFor d
  rcases apiReply_broker rid agent o w with ⟨hb, -⟩ | ⟨function, arg, pool, ho', -, hb⟩
  · rw [hb]
    exact ⟨hq, hi⟩
  · rw [hb]
    refine ⟨?_, hi⟩
    intro queue j hj
    by_cases hname : queue = pool.defaultQueueName
    · subst hname
      rw [Broker.enqueue_queues_self, List.mem_append, List.mem_singleton] at hj
      rcases hj with hj | hj
      · exact hq _ j hj
      · subst hj
        rintro ⟨hfunction, harg⟩
        simp only at hfunction harg
        exact ho (by rw [ho', hfunction, harg])
    · rw [Broker.enqueue_queues_of_ne hname] at hj
      exact hq queue j hj

/-- The worker's steps on the broker only move jobs that are there. -/
private theorem unqueued_worker {d : Uuid} {e : WorkerStep} {w w' : ApiWorld} (h : e.step worker w = some w')
    (hq : ∀ queue, ∀ j ∈ w.broker.queues queue, ¬ j.IsFor d) (hi : ∀ j ∈ w.broker.running, ¬ j.IsFor d) :
    (∀ queue, ∀ j ∈ w'.broker.queues queue, ¬ j.IsFor d) ∧ ∀ j ∈ w'.broker.running, ¬ j.IsFor d := by
  simp only [WorkerStep.step, Option.map_eq_some_iff] at h
  obtain ⟨b, hb, rfl⟩ := h
  cases e with
  | poll i =>
    simp only [Broker.poll, Option.ite_none_right_eq_some, Option.map_eq_some_iff] at hb
    obtain ⟨-, j, hget, rfl⟩ := hb
    refine ⟨?_, ?_⟩
    · intro queue j' hj'
      by_cases hname : queue = worker.queueName
      · subst hname
        simp only [Function.update_self] at hj'
        exact hq _ j' (List.mem_of_mem_eraseIdx hj')
      · simp only [Function.update_of_ne hname] at hj'
        exact hq queue j' hj'
    · intro j' hj'
      rcases List.mem_cons.mp hj' with rfl | hj'
      · exact hq _ j' (List.mem_of_getElem? hget)
      · exact hi j' hj'
  | finish i =>
    simp only [Broker.finish, Option.ite_none_right_eq_some, Option.some.injEq] at hb
    obtain ⟨-, rfl⟩ := hb
    exact ⟨hq, fun j hj => hi j (List.mem_of_mem_eraseIdx hj)⟩

/-- The executions of jobs leave the broker alone, and ids are not given out twice. -/
private theorem job_frame {p p' : Platform} (hs : Sound p) {l : JobLabel}
    (h : PlatformStep.step worker lib (.job l) p = some p') :
    p'.api.broker = p.api.broker ∧ p.api.nextUuid ≤ p'.api.nextUuid := by
  simp only [PlatformStep.step, dif_pos hs.keyed, Option.ite_none_right_eq_some, Option.map_eq_some_iff] at h
  obtain ⟨-, s', hstep, rfl⟩ := h
  refine ⟨rfl, ?_⟩
  show (p.jobState hs.keyed).world.stores.nextUuid ≤ s'.world.stores.nextUuid
  rcases step_cases hstep with ⟨pid, j, rfl, -, rfl⟩ | ⟨pid, out, j, o, k, rfl, -, rfl⟩ | ⟨e, -⟩
  · exact Nat.le_refl _
  · rw [resume_world]
    rcases Outcome.world_eq (jobHandler pid j.replies) o (p.jobState hs.keyed).world out with hw | hw
    · exact Nat.le_of_eq (congrArg (fun w : JobWorld => w.stores.nextUuid) hw).symm
    · exact Nat.le_trans (jobReply_rows pid j.replies o _).uuid
        (Nat.le_of_eq (congrArg (fun w : JobWorld => w.stores.nextUuid) hw).symm)
  · cases e

/-- A step of a request that never enqueues leaves a request that never enqueues. -/
private theorem neverEnqueues_step {s s' : PlatformState} {l : PlatformLabel} {d : Uuid} (hi : Lost s d)
    (h : (platformService cfg worker lib).step s l = some s') :
    ∀ pid proc, s'.procs pid = some proc → NeverEnqueues d proc.prog := by
  intro q proc hq
  by_cases hpid : l.pid = some q
  · rcases step_cases h with ⟨pid, r, rfl, -, rfl⟩ | ⟨pid, out, req, o, k, rfl, hproc, rfl⟩ |
      ⟨e, w, rfl, -, rfl⟩
    · obtain rfl : pid = q := by simpa [Label.pid] using hpid
      obtain rfl : ⟨r, _⟩ = proc := by simpa using hq
      exact request_neverEnqueues cfg worker r
    · obtain rfl : pid = q := by simpa [Label.pid] using hpid
      have hprog : NeverEnqueues d (.call o k) := hi.settled pid _ hproc
      cases hrep : out.reply ((platformService cfg worker lib).handle pid req) o s.world with
      | none => simp [resume, hrep] at hq
      | some rep =>
        obtain rfl : ⟨req, k rep⟩ = proc := by simpa [resume, hrep] using hq
        cases rep with
        | error e => exact hprog.2.2 e
        | ok a =>
          refine hprog.2.1 a ?_
          obtain ⟨agent, hh⟩ := handle_eq cfg worker pid req
          have hok : ((platformService cfg worker lib).handle pid req o s.world).1 = .ok a := by
            cases out with
            | ok => simpa [Outcome.reply] using hrep
            | raised e applied => simp [Outcome.reply] at hrep
            | crashed applied => simp [Outcome.reply] at hrep
          have hapi : (apiHandler pid agent o s.world.api).1 = .ok a := by
            rw [← hh]
            exact hok
          exact otherRow_reply hi.known hapi
    · cases hpid
  · exact hi.settled q proc ((step_procs hpid h).symm.trans hq)

/-- A lost document stays lost. -/
private theorem Lost.step {s s' : PlatformState} {l : PlatformLabel} {d : Uuid} (hi : Lost s d)
    (h : (platformService cfg worker lib).step s l = some s') : Lost s' d := by
  have hsound := (platform_step hi.sound h).1
  have hsettled := neverEnqueues_step hi h
  rcases step_cases h with ⟨pid, r, rfl, -, rfl⟩ | ⟨pid, out, req, o, k, rfl, hproc, rfl⟩ |
    ⟨e, w, rfl, hw, rfl⟩
  · exact ⟨hsound, hi.known, hi.unqueued, hi.idle, hsettled⟩
  · obtain ⟨agent, hh⟩ := handle_eq cfg worker pid req
    have hworld : ((platformService cfg worker lib).handle pid req o s.world).2.api =
        (apiHandler pid agent o s.world.api).2 := by
      rw [← hh]
      rfl
    rcases Outcome.world_eq ((platformService cfg worker lib).handle pid req) o s.world out with hw | hw
    · refine ⟨hsound, ?_, ?_, ?_, hsettled⟩
      all_goals rw [resume_world, hw]
      · exact hi.known
      · exact hi.unqueued
      · exact hi.idle
    · -- the call is not one that enqueues a job for the document
      have ho : NotIngesting d o := (hi.settled pid _ hproc).1
      obtain ⟨hq, hr⟩ := @unqueued_call d s.world.api pid agent o ho hi.unqueued hi.idle
      refine ⟨hsound, ?_, ?_, ?_, hsettled⟩
      all_goals rw [resume_world, hw, hworld]
      · exact Nat.lt_of_lt_of_le hi.known (uuid_rows (apiHandler_rows pid agent o s.world.api))
      · exact hq
      · exact hr
  · cases e with
    | job l =>
      -- a step of a job leaves the queues alone
      obtain ⟨hb, huuid⟩ := @job_frame worker lib s.world w hi.sound l hw
      refine ⟨hsound, Nat.lt_of_lt_of_le hi.known huuid, ?_, ?_, hsettled⟩
      · rw [hb]
        exact hi.unqueued
      · rw [hb]
        exact hi.idle
    | broker e =>
      simp only [platformService, PlatformStep.step, Option.map_eq_some_iff] at hw
      obtain ⟨w', hw', rfl⟩ := hw
      obtain ⟨hq, hr⟩ := unqueued_worker hw' hi.unqueued hi.idle
      refine ⟨hsound, ?_, hq, hr, hsettled⟩
      simp only [WorkerStep.step, Option.map_eq_some_iff] at hw'
      obtain ⟨b, -, rfl⟩ := hw'
      exact hi.known

/-- A stranded document of a reachable state is lost. -/
private theorem Stranded.lost {s : PlatformState} {row : Document} (hd : Stranded s row)
    (hs : Sound s.world) : Lost s row.id := by
  refine ⟨hs, ?_, ?_, ?_, hd.settled⟩
  · exact hs.ids.fresh none row.id (List.mem_map_of_mem hd.stored)
  · intro queue j hj hfor
    exact hd.unqueued ⟨queue, j, hj, hfor⟩
  · intro j hj hfor
    exact hd.unprocessed (Or.inl ⟨j, hj, hfor⟩)

private theorem sound_of_run {ls : List PlatformLabel} {s : PlatformState}
    (h : (platformService cfg worker lib).run (idle .blank) ls = some s) : Sound s.world :=
  run_keeps (fun s => Sound s.world) (fun _ _ _ hi hs => (platform_step hi hs).1) sound_blank h

/-- Whatever is uploaded when a document is stranded, no upload that is answered has it ingested. -/
theorem not_reingested (cfg : ApiSettings) (worker : WorkerSettings) (lib : ChunkerLib)
    (ls₁ ls₂ : List PlatformLabel) (s t : PlatformState)
    (hs : (platformService cfg worker lib).run (idle .blank) ls₁ = some s) (row : Document)
    (hd : Stranded s row) (ht : (platformService cfg worker lib).run s ls₂ = some t) (pid : Nat)
    (c : UploadCall) (hmatch : c.Matches cfg row) (r : UploadResponse)
    (hr : t.procs pid = some ⟨.upload c, .done (.ok (.uploaded r))⟩) : ¬ Reingests cfg t pid c row := by
  intro h
  have hlost : Lost t row.id := run_keeps (fun s => Lost s row.id) (fun _ _ _ hi hs => hi.step hs)
    (hd.lost (sound_of_run hs)) ht
  obtain ⟨queue, j, hj, hfor⟩ := h hmatch ⟨r, hr⟩
  exact hlost.unqueued queue j hj hfor

/-! ### An upload whose job could not be enqueued -/

/-- The job of the first upload cannot be enqueued. -/
def strandingRun : List PlatformLabel :=
  .start 0 (.upload (uploadOf 1)) ::
    (List.replicate 7 (.call 0 .ok) ++ [.call 0 (.raised (.other "ConnectionError") false)])

/-- The user tries again. -/
def retryRun : List PlatformLabel := .start 1 (.upload (uploadOf 1)) :: List.replicate 3 (.call 1 .ok)

/-- The row of the first upload. -/
def strandedRow : Document :=
  ⟨⟨1, 1, "luat.pdf", "application/pdf", 1, "5a", "tenants/1/docs/1/raw"⟩, 2, .pending, none, none,
    none, 1, none⟩

/-- The next call of a request enqueues a job. -/
def enqueuesNext (s : PlatformState) (pid : Nat) : Bool :=
  match s.procs pid with
  | some ⟨_, .call (.enqueueJob ..) _⟩ => true
  | _ => false

/-- A step of the API that enqueues nothing. -/
def EnqueuesNone (s : PlatformState) : PlatformLabel → Prop
  | .start .. => True
  | .env _ => False
  | .call pid out => enqueuesNext s pid = true → out.applied = false

instance (s : PlatformState) : ∀ l, Decidable (EnqueuesNone s l)
  | .start .. => isTrue trivial
  | .env _ => isFalse id
  | .call pid out => inferInstanceAs (Decidable (enqueuesNext s pid = true → out.applied = false))

private theorem enqueuesNone_frame {s s' : PlatformState} {l : PlatformLabel} (hl : EnqueuesNone s l)
    (h : (platformService cfg worker lib).step s l = some s') :
    s'.world.api.broker = s.world.api.broker ∧ s'.world.jobs = s.world.jobs := by
  rcases step_cases h with ⟨pid, r, rfl, -, rfl⟩ | ⟨pid, out, req, o, k, rfl, hproc, rfl⟩ |
    ⟨e, w, rfl, -, rfl⟩
  · exact ⟨rfl, rfl⟩
  · rw [resume_world]
    obtain ⟨agent, hh⟩ := handle_eq cfg worker pid req
    have hworld : ((platformService cfg worker lib).handle pid req o s.world).2.api =
        (apiHandler pid agent o s.world.api).2 := by
      rw [← hh]
      rfl
    rcases apiReply_broker pid agent o s.world.api with ⟨hb, -⟩ | ⟨function, arg, pool, rfl, -, -⟩
    · rcases Outcome.world_eq ((platformService cfg worker lib).handle pid req) o s.world out with hw | hw
      · rw [hw]
        exact ⟨rfl, rfl⟩
      · rw [hw, hworld]
        exact ⟨hb, rfl⟩
    · have hout : out.applied = false := hl (by simp only [enqueuesNext, hproc])
      rw [Outcome.world_of_not_applied hout]
      exact ⟨rfl, rfl⟩
  · exact absurd hl id

private theorem enqueuesNone_run {s t : PlatformState} {ls : List PlatformLabel}
    (hm : (platformService cfg worker lib).Meets EnqueuesNone s ls)
    (h : (platformService cfg worker lib).run s ls = some t) :
    t.world.api.broker = s.world.api.broker ∧ t.world.jobs = s.world.jobs := by
  have hstep : ∀ u l u', u.world.api.broker = s.world.api.broker ∧ u.world.jobs = s.world.jobs →
    EnqueuesNone u l →
      (platformService cfg worker lib).step u l = some u' →
        u'.world.api.broker = s.world.api.broker ∧ u'.world.jobs = s.world.jobs := by
    intro u l u' hu hl hs
    obtain ⟨hbroker, hjobs⟩ := enqueuesNone_frame hl hs
    exact ⟨hbroker.trans hu.1, hjobs.trans hu.2⟩
  exact run_induct hstep ⟨rfl, rfl⟩ hm h

/-- The request is over. -/
def isOver (s : PlatformState) (pid : Nat) : Bool :=
  match s.procs pid with
  | some ⟨_, .done _⟩ => true
  | _ => false

private theorem isOver_settled {s : PlatformState} {pid : Nat} (h : isOver s pid = true) {d : Uuid}
    {proc : Proc ApiCalls ApiErr ApiRequest ApiReply} (hproc : s.procs pid = some proc) :
    NeverEnqueues d proc.prog := by
  unfold isOver at h
  rw [hproc] at h
  obtain ⟨req, prog⟩ := proc
  cases prog with
  | done r => cases r <;> trivial
  | call o k => cases h

private theorem exists_stranded :
    ∃ s, (platformService uploadCfg pollingWorker plainChunker).run (idle .blank) strandingRun = some s ∧
      Stranded s strandedRow := by
  have hg : ((platformService uploadCfg pollingWorker plainChunker).run (idle .blank) strandingRun).map
      (fun s => (s.world.api.documents, isOver s 0)) = some ([strandedRow], true) := by decide +kernel
  obtain ⟨s, hs, hg⟩ := Option.map_eq_some_iff.mp hg
  obtain ⟨hdocs, hover⟩ := Prod.mk.inj hg
  obtain ⟨hbroker, hjobs⟩ := enqueuesNone_run (by decide +kernel) hs
  refine ⟨s, hs, ⟨?_, ?_, ?_, ?_⟩, ?_⟩
  · rw [hdocs]
    exact List.mem_singleton_self _
  · decide
  · rintro ⟨queue, j, hj, -⟩
    rw [hbroker] at hj
    cases hj
  · rintro (⟨j, hj, -⟩ | ⟨pid, j, o, k, hjob, -⟩)
    · rw [hbroker] at hj
      cases hj
    · rw [hjobs] at hjob
      cases hjob
  · intro pid proc hproc
    by_cases hpid : pid = 0
    · subst hpid
      exact isOver_settled hover hproc
    · have hbelow : s.Below 1 := (idle_below 1 _).run (by decide) hs
      rw [hbelow pid (by omega)] at hproc
      cases hproc

/-- The response to the second upload. -/
def answerOf (s : PlatformState) (pid : Nat) : Option (UploadCall × UploadResponse) :=
  match s.procs pid with
  | some ⟨.upload c, .done (.ok (.uploaded r))⟩ => some (c, r)
  | _ => none

private theorem answerOf_eq {s : PlatformState} {pid : Nat} {c : UploadCall} {r : UploadResponse}
    (h : answerOf s pid = some (c, r)) : s.procs pid = some ⟨.upload c, .done (.ok (.uploaded r))⟩ := by
  unfold answerOf at h
  split at h
  · rename_i c' r' hproc
    simp only [Option.some.injEq, Prod.mk.injEq] at h
    rw [hproc, h.1, h.2]
  · cases h

/-- The same file again is answered with the stranded document. -/
private theorem exists_retried : ∃ s t,
    (platformService uploadCfg pollingWorker plainChunker).run (idle .blank) strandingRun = some s ∧
      Stranded s strandedRow ∧ (platformService uploadCfg pollingWorker plainChunker).run s retryRun =
      some t ∧ t.procs 1 = some ⟨.upload (uploadOf 1), .done (.ok (.uploaded ⟨[strandedRow], []⟩))⟩ := by
  obtain ⟨s, hs, hd⟩ := exists_stranded
  have hg : ((platformService uploadCfg pollingWorker plainChunker).run (idle .blank)
    (strandingRun ++ retryRun)).map
      (fun s => answerOf s 1) = some (some (uploadOf 1, ⟨[strandedRow], []⟩)) := by decide +kernel
  obtain ⟨t, ht, hanswer⟩ := Option.map_eq_some_iff.mp hg
  obtain ⟨s', hs', ht⟩ := run_append ht
  obtain rfl : s = s' := Option.some.inj (hs.symm.trans hs')
  exact ⟨s, t, hs, hd, ht, answerOf_eq hanswer⟩

private theorem strandedRow_matches : (uploadOf 1).Matches uploadCfg strandedRow :=
  ⟨rfl, _, List.mem_singleton_self _, rfl⟩

theorem not_reingested_retry : ∃ t, ¬ Reingests uploadCfg t 1 (uploadOf 1) strandedRow := by
  obtain ⟨s, t, hs, hd, ht, hanswer⟩ := exists_retried
  exact ⟨t, not_reingested uploadCfg pollingWorker plainChunker _ _ s t hs strandedRow hd ht 1 _
    strandedRow_matches _ hanswer⟩

/-- Not every dead document is ingested by an upload of its file. -/
theorem not_all_reingested :
    ¬ ∀ (cfg : ApiSettings) (worker : WorkerSettings) (lib : ChunkerLib)
      (ls₁ ls₂ : List PlatformLabel) (s t : PlatformState) (row : Document) (pid : Nat) (c : UploadCall),
      (platformService cfg worker lib).run (idle .blank) ls₁ = some s → Dead s.world row →
        (platformService cfg worker lib).run s (.start pid (.upload c) :: ls₂) = some t →
        Reingests cfg t pid c row := by
  intro h
  obtain ⟨s, t, hs, hd, ht, hanswer⟩ := exists_retried
  obtain ⟨queue, j, hj, hfor⟩ :=
    h uploadCfg pollingWorker plainChunker _ _ s t strandedRow 1 (uploadOf 1) hs hd.toDead ht
    strandedRow_matches ⟨_, hanswer⟩
  have hlost : Lost t strandedRow.id :=
    run_keeps (fun s => Lost s strandedRow.id) (fun _ _ _ hi hs => hi.step hs)
    (hd.lost (sound_of_run hs)) ht
  exact hlost.unqueued queue j hj hfor

end LegalRag
