import LegalRag.Api.FileEvents
import LegalRag.Worker.Platform

/-!
# The events of a file, while the worker ingests it

A `file_events` request and any executions of `process_document`, interleaved in any order.  `OnItsWay`
collects the final statuses that the client will still hear of or has heard of last: those whose event an
execution publishes next, and the `endings` of the stream.

* `told_of_heard`: if the stream subscribes before the final event is published (`Heard`), a finished
document ends it;
* `stuck_after_gap`: if it subscribes to a document that is already finished, it is left waiting.
-/

namespace LegalRag

open Calls Prog Service

/-- What the worker uses, and the stream. -/
structure EventsWorld where
  jobs : JobWorld
  stream : FileStream

/-- What the stream is sent by a call of the worker. -/
def FileStream.hear (docId : Uuid) (g : FileStream) : JobOp → FileStream
  | .publish channel e => g.deliver docId channel e
  | _ => g

/-- A call of an execution. -/
def eventsReply (docId : Uuid) (pid : Nat) (env : JobReplies) (o : JobCalls.Op) (w : EventsWorld) :
    Except JobErr (JobCalls.Resp o) × EventsWorld :=
  ((jobReply pid env o w.jobs).1, ⟨(jobReply pid env o w.jobs).2, w.stream.hear docId o⟩)

/-- The executions of the worker, with the request as their environment. -/
def eventsService (lib : ChunkerLib) (docId userId : Uuid) :
    Service JobCalls JobErr EventsWorld IngestionJob Unit JobResult where
  program j := processDocument lib j.docId
  enter pid w := { w with jobs := w.jobs.begin pid }
  handle pid j := eventsReply docId pid j.replies
  env _ w := (w.stream.step docId userId w.jobs.stores.documents.rows).map fun g => { w with stream := g }

abbrev EventsState := Service.State JobCalls JobErr EventsWorld IngestionJob JobResult

abbrev EventsLabel := Service.Label JobErr IngestionJob Unit

/-- The final status of the document that a call publishes. -/
def finalEvent (docId : Uuid) : JobOp → Option DocStatus
  | .publish channel e => if channel = eventsChannel docId ∧ e.status.isFinal then some e.status else none
  | _ => none

/-- The final status that an execution publishes next. -/
def owedBy (docId : Uuid) (s : EventsState) (pid : Nat) : Option DocStatus :=
  (s.nextOp pid).bind (finalEvent docId)

/-- A final status is on its way to the client, or was the last that it heard. -/
def OnItsWay (docId : Uuid) (s : EventsState) (st : DocStatus) : Prop :=
  (∃ pid, owedBy docId s pid = some st) ∨ st ∈ s.world.stream.endings

/-- The stream subscribes to a document that is not finished, or whose final event is still to be
published; a commit of a final status finds no other one on its way, and is seen by the worker; and the
final event is published. -/
def Heard (docId : Uuid) (s : EventsState) : EventsLabel → Prop
  | .env _ => ∀ read, s.world.stream.phase = .opened read →
      ∀ st, st.isFinal → HasStatus docId st s.world.jobs.stores → ∃ pid, owedBy docId s pid = some st
  | .call pid out =>
    (s.nextOp pid = some .commit → ∀ st ∈ finals docId (s.world.jobs.executions pid).pending,
      (∀ st', OnItsWay docId s st' → st' = st) ∧
      (s.world.stream.phase.isSubscribed → out.applied → out = .ok)) ∧
    (owedBy docId s pid ≠ none → s.world.stream.phase.isSubscribed → out.applied)
  | .start .. => True

/-- When the document is finished and nothing is left for the stream but to wait, the client has been
told, and the stream has ended. -/
def TellsEnd (docId : Uuid) (s : EventsState) : Prop :=
  ∀ st, st.isFinal → HasStatus docId st s.world.jobs.stores → s.world.stream.Quiescent →
    s.world.stream.Told st

/-! ### What an execution owes -/

section Steps

variable {lib : ChunkerLib} {docId userId : Uuid} {s s' : EventsState} {pid : Nat} {j : IngestionJob}

/-- The executions are in their phases. -/
abbrev JobsAnnounce (s : EventsState) : Prop :=
  s.Obeys (fun j => announces j.docId) (fun _ φ _ => ∀ st, φ ≠ .owes st) fun j pid φ w =>
  φ.Fits j.docId (w.jobs.executions pid)

private theorem eventsReply_jobs (o : JobOp) (w : EventsWorld) (out : Outcome JobErr) :
    (out.world (eventsReply docId pid j.replies) o w).jobs = out.world
      (jobHandler pid j.replies) o w.jobs := by
  cases out with
  | ok => rfl
  | raised e applied => cases applied <;> rfl
  | crashed applied => cases applied <;> rfl

private theorem eventsReply_stream (o : JobOp) (w : EventsWorld) (out : Outcome JobErr) :
    (out.world (eventsReply docId pid j.replies) o w).stream =
      if out.applied then w.stream.hear docId o else w.stream := by
  cases out with
  | ok => rfl
  | raised e applied => cases applied <;> rfl
  | crashed applied => cases applied <;> rfl

private theorem eventsReply_reply (o : JobOp) (w : EventsWorld) (out : Outcome JobErr) :
    out.reply (eventsReply docId pid j.replies) o w = out.reply (jobHandler pid j.replies) o w.jobs := by
  cases out <;> rfl

/-- The event that an execution owes is that of its phase. -/
private theorem owed_iff {φ : AnnouncePhase} {prog : JobProg JobResult} (hproc : s.procs pid = some ⟨j, prog⟩)
    (hobeys : prog.Obeys (announces j.docId) (fun ψ _ => ∀ st, ψ ≠ .owes st) φ)
    (hfits : φ.Fits j.docId (s.world.jobs.executions pid)) {st : DocStatus} :
    owedBy docId s pid = some st ↔ j.docId = docId ∧ φ = .owes st := by
  unfold owedBy
  cases prog with
  | done r =>
    have hnone : s.nextOp pid = none := by
      unfold State.nextOp
      rw [hproc]
    rw [hnone]
    constructor
    · intro h
      cases h
    · intro h
      exact absurd h.2 (hobeys st)
  | call o k =>
    rw [State.nextOp_call hproc, Option.bind_some]
    have ha : (announces j.docId).allows φ o := hobeys.1
    cases φ with
    | quiet =>
      refine iff_of_false (fun h => ?_) fun h => by cases h.2
      cases o with
      | publish channel e =>
        simp only [finalEvent, Option.ite_none_right_eq_some] at h
        have hnot : e.status.isFinal = false := ha
        rw [hnot] at h
        cases h.1.2
      | _ => cases h
    | ready st' =>
      obtain rfl : o = .commit := ha
      refine iff_of_false (fun h => ?_) fun h => by cases h.2
      cases h
    | dirty =>
      refine iff_of_false (fun h => ?_) fun h => by cases h.2
      rcases ha with rfl | rfl <;> cases h
    | owes st' =>
      obtain ⟨e, rfl, rfl⟩ := ha
      simp only [finalEvent, Option.ite_none_right_eq_some, Option.some.injEq, AnnouncePhase.owes.injEq,
        hfits.1, and_true]
      refine and_congr_left fun _ => ⟨eventsChannel_inj, fun h => by rw [h]⟩

/-- A step keeps the executions in their phases. -/
private theorem jobsAnnounce_step {l : EventsLabel} (hs : JobsAnnounce s)
    (h : (eventsService lib docId userId).step s l = some s') : JobsAnnounce s' := by
  refine obeys_step ?_ ?_ ?_ hs h
  · intro pid j w
    refine ⟨.quiet, processDocument_announces, fits_quiet_nil ?_⟩
    show ((w.jobs.begin pid).executions pid).pending = []
    simp [JobWorld.begin, Execution.start]
  · intro pid j o k out φ rep _ _ ha hf hrep
    refine ⟨fun _ _ => trivial, ?_⟩
    show ((announces j.docId).after φ o rep).Fits j.docId
      ((out.world (eventsReply docId pid j.replies) o s.world).jobs.executions pid)
    rw [eventsReply_jobs]
    refine announce_call ha hf ?_
    rw [← hrep]
    exact (eventsReply_reply o s.world out).symm
  · intro q p φ hq hp _ hf
    show φ.Fits p.req.docId (s'.world.jobs.executions q)
    have hsame : s'.world.jobs.executions q = s.world.jobs.executions q := by
      rcases step_cases h with ⟨pid, r, rfl, -, rfl⟩ | ⟨pid, out, r, o, k, rfl, -, rfl⟩ | ⟨e, w, rfl, hw, rfl⟩
      · have hne : q ≠ pid := fun he => hq (by rw [he]; rfl)
        exact Function.update_of_ne hne _ _
      · have hne : q ≠ pid := fun he => hq (by rw [he]; rfl)
        rw [resume_world]
        show (out.world (eventsReply docId pid r.replies) o s.world).jobs.executions q = _
        rw [eventsReply_jobs]
        exact jobHandler_others hne r.replies o s.world.jobs out
      · obtain ⟨g, -, rfl⟩ := Option.map_eq_some_iff.mp hw
        rfl
    rw [hsame]
    exact hf

/-- An event comes to be owed by the commit of its status. -/
private theorem after_owes {d : Uuid} {φ : AnnouncePhase} {o : JobOp} (ha : (announces d).allows φ o)
    (rep : Except JobErr o.Resp)
    (st : DocStatus) : (announces d).after φ o rep = .owes st ↔ φ = .ready st ∧ ∃ a, rep = .ok a := by
  cases rep with
  | ok a =>
    cases φ with
    | quiet =>
      refine iff_of_false (fun h => ?_) fun h => by cases h.1
      cases o with
      | updateDocument d' u =>
        have hite : (if u.status.isFinal then AnnouncePhase.ready u.status else .quiet) = .owes st := h
        split at hite <;> cases hite
      | _ => cases h
    | ready st' =>
      show AnnouncePhase.owes st' = .owes st ↔ _
      simp
    | dirty =>
      refine iff_of_false (fun h => ?_) fun h => by cases h.1
      rcases ha with rfl | rfl <;> cases h
    | owes st' =>
      obtain ⟨e, rfl, -⟩ := ha
      refine iff_of_false (fun h => ?_) fun h => by cases h.1
      cases h
  | error err =>
    refine iff_of_false (fun h => ?_) fun h => by cases h.2.choose_spec
    cases φ with
    | quiet => cases o <;> cases h
    | ready st' =>
      obtain rfl : o = .commit := ha
      cases h
    | dirty => cases h
    | owes st' =>
      obtain ⟨e, rfl, -⟩ := ha
      cases h

/-- What a call changes of what is owed: nothing is owed any more by the execution that makes it, unless
it is the commit of a final status. -/
private theorem owed_call {φ : AnnouncePhase} {o : JobOp} {k : Except JobErr o.Resp → JobProg JobResult}
    {out : Outcome JobErr} (hproc : s.procs pid = some ⟨j, .call o k⟩)
    (hobeys : (.call o k : JobProg JobResult).Obeys (announces j.docId) (fun ψ _ => ∀ st, ψ ≠ .owes st) φ)
    (hfits : φ.Fits j.docId (s.world.jobs.executions pid))
    (h : (eventsService lib docId userId).step s (.call pid out) = some s') (st : DocStatus) :
    owedBy docId s' pid = some st ↔
      j.docId = docId ∧ φ = .ready st ∧ ∃ a, out.reply (jobHandler pid j.replies) o s.world.jobs =
      some (.ok a) := by
  simp only [step, hproc, Option.some.injEq] at h
  subst h
  show owedBy docId (resume s _ pid j k (out.reply (eventsReply docId pid j.replies) o s.world)) pid = _ ↔ _
  rw [eventsReply_reply]
  cases hrep : out.reply (jobHandler pid j.replies) o s.world.jobs with
  | none =>
    refine iff_of_false (fun h => ?_) fun h => ?_
    · simp [owedBy, State.nextOp, resume] at h
    · obtain ⟨-, -, a, ha⟩ := h
      cases ha
  | some rep =>
    have hnext : (k rep).Obeys (announces j.docId) (fun ψ _ => ∀ st, ψ ≠ .owes st)
        ((announces j.docId).after φ o rep) := by
      cases rep with
      | ok a => exact hobeys.2.1 a trivial
      | error e => exact hobeys.2.2 e
    have hfits' := announce_call hobeys.1 hfits hrep
    rw [← @eventsReply_jobs docId pid j] at hfits'
    have howed :=
      @owed_iff docId (s.set (out.world (eventsReply docId pid j.replies) o s.world) pid
      (some ⟨j, k rep⟩)) pid j _ _
      (State.set_procs_self ..) hnext hfits' st
    refine howed.trans ?_
    rw [after_owes hobeys.1]
    simp

/-! ### The invariant -/

/-- At most one final status is on its way, and once the stream has subscribed to a finished document its
status is. -/
structure EventsInv (docId : Uuid) (s : EventsState) : Prop where
  jobs : JobsAnnounce s
  stream : s.world.stream.WellFormed
  agree : ∀ st st', OnItsWay docId s st → OnItsWay docId s st' → st = st'
  coming : s.world.stream.phase.isSubscribed ∨ s.world.stream.phase.isOver →
    ∀ st, st.isFinal → HasStatus docId st s.world.jobs.stores → OnItsWay docId s st

private theorem eventsInv_idle (w : JobWorld) : EventsInv docId (idle ⟨w, .start⟩) where
  jobs := idle_obeys _ _ _ _
  stream := FileStream.wellFormed_start
  agree st st' h := by
    rcases h with ⟨pid, h⟩ | h <;> cases h
  coming h := by
    rcases h with h | h <;> cases h

/-- A step after which the same statuses are on their way, and no other final status has been committed.
-/
private theorem EventsInv.of_same (hi : EventsInv docId s) (hjobs : JobsAnnounce s')
    (hstream : s'.world.stream = s.world.stream)
    (howed : ∀ q st, owedBy docId s' q = some st ↔ owedBy docId s q = some st)
    (hstatus : ∀ st, st.isFinal → HasStatus docId st s'.world.jobs.stores →
    HasStatus docId st s.world.jobs.stores) : EventsInv docId s' := by
  have hsame : ∀ st, OnItsWay docId s' st ↔ OnItsWay docId s st := by
    intro st
    unfold OnItsWay
    simp only [howed, hstream]
  refine ⟨hjobs, hstream ▸ hi.stream, ?_, ?_⟩
  · intro st st' h h'
    exact hi.agree st st' ((hsame st).mp h) ((hsame st').mp h')
  · intro hphase st hfinal hst
    rw [hstream] at hphase
    exact (hsame st).mpr (hi.coming hphase st hfinal (hstatus st hfinal hst))

/-- What the executions owe that take no part in a step. -/
private theorem owed_others {l : EventsLabel} (h : (eventsService lib docId userId).step s l = some s')
    {q : Nat} (hq : l.pid ≠ some q) : owedBy docId s' q = owedBy docId s q := by
  unfold owedBy State.nextOp
  rw [step_procs hq h]

/-- A step of the stream. -/
private theorem eventsInv_stream (hi : EventsInv docId s) (hheard : Heard docId s (.env ()))
    (h : (eventsService lib docId userId).step s (.env ()) = some s') : EventsInv docId s' := by
  have hjobs := jobsAnnounce_step hi.jobs h
  have howed : ∀ q, owedBy docId s' q = owedBy docId s q := fun q => owed_others h fun he => by cases he
  obtain ⟨w, hw, rfl⟩ := Option.map_eq_some_iff.mp h
  obtain ⟨g, hg, rfl⟩ := Option.map_eq_some_iff.mp hw
  obtain ⟨hwell, hold, hkept⟩ := FileStream.step_endings hi.stream hg
  have hback : ∀ st, OnItsWay docId ⟨{ s.world with stream := g }, s.procs⟩ st → OnItsWay docId s st := by
    intro st hst
    rcases hst with ⟨q, hq⟩ | hst
    · exact Or.inl ⟨q, (howed q).symm.trans hq⟩
    · exact Or.inr (hold st hst)
  have hforth : ∀ st, OnItsWay docId s st → OnItsWay docId ⟨{ s.world with stream := g }, s.procs⟩ st := by
    intro st hst
    rcases hst with ⟨q, hq⟩ | hst
    · exact Or.inl ⟨q, (howed q).trans hq⟩
    · exact Or.inr (hkept st hst fun st' hst' => hi.agree st' st (Or.inr hst') (Or.inr hst))
  refine ⟨hjobs, hwell, fun st st' hst hst' => hi.agree st st' (hback st hst) (hback st' hst'), ?_⟩
  intro hphase st hfinal hst
  by_cases hbefore : s.world.stream.phase.isSubscribed ∨ s.world.stream.phase.isOver
  · exact hforth st (hi.coming hbefore st hfinal hst)
  · -- the SUBSCRIBE
    obtain ⟨read, hread⟩ := FileStream.opened_of_step hg hbefore hphase
    exact hforth st (Or.inl (hheard read hread st hfinal hst))

/-- An execution begins. -/
private theorem eventsInv_start (hi : EventsInv docId s)
    (h : (eventsService lib docId userId).step s (.start pid j) = some s') : EventsInv docId s' := by
  have hjobs := jobsAnnounce_step hi.jobs h
  have hothers : ∀ q, q ≠ pid → owedBy docId s' q = owedBy docId s q :=
    fun q hq => owed_others h fun he => hq (Option.some.inj he).symm
  cases hproc : s.procs pid with
  | some proc => simp [step, hproc] at h
  | none =>
    simp only [step, hproc, Option.some.injEq] at h
    subst h
    refine hi.of_same hjobs rfl (fun q st => ?_) fun st _ hst => hst
    by_cases hq : q = pid
    · subst hq
      -- nothing was owed by it, and nothing is when it begins
      have hquiet : AnnouncePhase.quiet.Fits j.docId ((s.world.jobs.begin q).executions q) := by
        refine fits_quiet_nil ?_
        simp [JobWorld.begin, Execution.start]
      refine iff_of_false (fun howed => ?_) fun howed => ?_
      · have hphase := (owed_iff (State.set_procs_self ..) processDocument_announces hquiet).mp howed
        cases hphase.2
      · simp [owedBy, State.nextOp, hproc] at howed
    · rw [hothers q hq]

/-- What a call does to the stores and the stream. -/
private theorem call_world {o : JobOp} {k : Except JobErr o.Resp → JobProg JobResult} {out : Outcome JobErr}
    (hproc : s.procs pid = some ⟨j, .call o k⟩)
    (h : (eventsService lib docId userId).step s (.call pid out) = some s') :
    s'.world.jobs = out.world (jobHandler pid j.replies) o s.world.jobs ∧
      s'.world.stream = if out.applied then s.world.stream.hear docId o else s.world.stream := by
  simp only [step, hproc, Option.some.injEq] at h
  subst h
  rw [resume_world]
  exact ⟨eventsReply_jobs o s.world out, eventsReply_stream o s.world out⟩

/-- A call that is neither a commit nor a publish leaves the status and the stream alone. -/
private theorem eventsInv_silent {o : JobOp} {k : Except JobErr o.Resp → JobProg JobResult}
    {out : Outcome JobErr} (hi : EventsInv docId s) (hproc : s.procs pid = some ⟨j, .call o k⟩)
    (hcommit : o ≠ .commit) (hpublish : ∀ channel e, o ≠ .publish channel e)
    (h : (eventsService lib docId userId).step s (.call pid out) = some s') : EventsInv docId s' := by
  obtain ⟨φ, hobeys, hfits⟩ := hi.jobs pid _ hproc
  obtain ⟨hjobs, hstream⟩ := call_world hproc h
  refine hi.of_same (jobsAnnounce_step hi.jobs h) ?_ (fun q st => ?_) fun st _ hst => ?_
  · have hhear : s.world.stream.hear docId o = s.world.stream := by
      cases o <;> first | rfl | exact absurd rfl (hpublish _ _)
    rw [hstream, hhear, ite_self]
  · by_cases hq : q = pid
    · subst hq
      rw [owed_call hproc hobeys hfits h, owed_iff hproc hobeys hfits]
      refine iff_of_false (fun howed => ?_) fun howed => ?_
      · obtain ⟨-, rfl, -⟩ := howed
        exact hcommit hobeys.1
      · obtain ⟨-, rfl⟩ := howed
        obtain ⟨e, ho, -⟩ := hobeys.1
        exact hpublish _ e ho
    · rw [owed_others h fun he => hq (Option.some.inj he).symm]
  · rw [hjobs] at hst
    unfold HasStatus at hst ⊢
    rcases Outcome.world_eq (jobHandler pid j.replies) o s.world.jobs out with hw | hw
    · rwa [hw] at hst
    · rw [hw] at hst
      rcases jobReply_documents pid j.replies o s.world.jobs with hdocs | ⟨ho, -⟩
      · rwa [show (jobHandler pid j.replies o s.world.jobs).2.stores.documents = _ from hdocs] at hst
      · exact absurd ho hcommit

/-- A publish. -/
private theorem eventsInv_publish {channel : String} {e : StatusEvent}
    {k : Except JobErr Unit → JobProg JobResult} {out : Outcome JobErr} (hi : EventsInv docId s)
    (hproc : s.procs pid = some ⟨j, .call (.publish channel e) k⟩) (hheard : Heard docId s (.call pid out))
    (h : (eventsService lib docId userId).step s (.call pid out) = some s') : EventsInv docId s' := by
  obtain ⟨φ, hobeys, hfits⟩ := hi.jobs pid _ hproc
  obtain ⟨hjobs, hstream⟩ := call_world hproc h
  have hothers : ∀ q, q ≠ pid → owedBy docId s' q = owedBy docId s q :=
    fun q hq => owed_others h fun he => hq (Option.some.inj he).symm
  have hnone : ∀ st, owedBy docId s' pid ≠ some st := by
    intro st howed
    obtain ⟨-, rfl, -⟩ := (owed_call hproc hobeys hfits h st).mp howed
    cases hobeys.1
  have hstores : s'.world.jobs.stores = s.world.jobs.stores := by
    rw [hjobs]
    rcases Outcome.world_eq (jobHandler pid j.replies) (.publish channel e) s.world.jobs out
      with hw | hw <;> rw [hw]
    rfl
  have howes : owedBy docId s pid = finalEvent docId (.publish channel e) := by
    unfold owedBy
    rw [State.nextOp_call hproc]
    rfl
  -- what the stream has in sight afterwards
  have hendings : ∀ st, st ∈ s'.world.stream.endings ↔ st ∈ s.world.stream.endings ∨
      out.applied ∧ s.world.stream.phase.isSubscribed ∧ owedBy docId s pid = some st := by
    intro st
    rw [hstream, howes]
    cases out.applied with
    | false => simp
    | true =>
      rw [if_pos rfl]
      show st ∈ (s.world.stream.deliver docId channel e).endings ↔ _
      rw [FileStream.mem_endings_deliver]
      simp [finalEvent, and_assoc]
  have hwell : s'.world.stream.WellFormed := by
    rw [hstream]
    split
    · exact hi.stream.deliver channel e
    · exact hi.stream
  have hphases : s'.world.stream.phase = s.world.stream.phase := by
    rw [hstream]
    split
    · exact FileStream.deliver_phase channel e
    · rfl
  have hback : ∀ st, OnItsWay docId s' st → OnItsWay docId s st := by
    intro st hst
    rcases hst with ⟨q, hq⟩ | hst
    · by_cases hne : q = pid
      · subst hne
        exact absurd hq (hnone st)
      · exact Or.inl ⟨q, (hothers q hne).symm.trans hq⟩
    · rcases (hendings st).mp hst with hst | ⟨-, -, hst⟩
      · exact Or.inr hst
      · exact Or.inl ⟨pid, hst⟩
  refine ⟨jobsAnnounce_step hi.jobs h, hwell, fun st st' hst hst' =>
    hi.agree st st' (hback st hst) (hback st' hst'), ?_⟩
  intro hphase st hfinal hst
  rw [hphases] at hphase
  rw [hstores] at hst
  rcases hi.coming hphase st hfinal hst with ⟨q, hq⟩ | hold
  · by_cases hne : q = pid
    · subst hne
      by_cases hsub : s.world.stream.phase.isSubscribed
      · have hout := hheard.2 (by rw [hq]; exact Option.some_ne_none st) hsub
        exact Or.inr ((hendings st).mpr (Or.inr ⟨hout, hsub, hq⟩))
      · -- the stream has ended, and on this status
        obtain ⟨last, hlast⟩ := Option.isSome_iff_exists.mp (hi.stream.told (hphase.resolve_left hsub))
        have hmem : last ∈ s.world.stream.endings := FileStream.mem_endings.mpr (Or.inr hlast)
        obtain rfl := hi.agree last st (Or.inr hmem) (Or.inl ⟨q, hq⟩)
        exact Or.inr ((hendings last).mpr (Or.inl hmem))
    · exact Or.inl ⟨q, (hothers q hne).trans hq⟩
  · exact Or.inr ((hendings st).mpr (Or.inl hold))

/-- A commit. -/
private theorem eventsInv_commit {k : Except JobErr Unit → JobProg JobResult} {out : Outcome JobErr}
    (hi : EventsInv docId s) (hproc : s.procs pid = some ⟨j, .call .commit k⟩)
    (hheard : Heard docId s (.call pid out))
    (h : (eventsService lib docId userId).step s (.call pid out) = some s') : EventsInv docId s' := by
  obtain ⟨φ, hobeys, hfits⟩ := hi.jobs pid _ hproc
  obtain ⟨hjobs, hstream⟩ := call_world hproc h
  have hsame : s'.world.stream = s.world.stream := by
    rw [hstream]
    exact ite_self _
  have hbefore : ∀ st, owedBy docId s pid ≠ some st := by
    intro st howed
    obtain ⟨-, rfl⟩ := (owed_iff hproc hobeys hfits).mp howed
    obtain ⟨e, ho, -⟩ := hobeys.1
    cases ho
  have hothers : ∀ q, q ≠ pid → owedBy docId s' q = owedBy docId s q :=
    fun q hq => owed_others h fun he => hq (Option.some.inj he).symm
  have hforth : ∀ st, OnItsWay docId s st → OnItsWay docId s' st := by
    intro st hst
    rcases hst with ⟨q, hq⟩ | hst
    · have hne : q ≠ pid := fun he => hbefore st (he ▸ hq)
      exact Or.inl ⟨q, (hothers q hne).trans hq⟩
    · exact Or.inr (hsame ▸ hst)
  -- a status that is new on its way is the one that is committed
  have hback : ∀ st, OnItsWay docId s' st → OnItsWay docId s st ∨
      finals docId (s.world.jobs.executions pid).pending = [st] := by
    intro st hst
    rcases hst with ⟨q, hq⟩ | hst
    · by_cases hne : q = pid
      · subst hne
        obtain ⟨rfl, rfl, -⟩ := (owed_call hproc hobeys hfits h st).mp hq
        exact Or.inr hfits.2
      · exact Or.inl (Or.inl ⟨q, (hothers q hne).symm.trans hq⟩)
    · exact Or.inl (Or.inr (hsame ▸ hst))
  obtain ⟨hcommit, -⟩ := hheard
  have honly := hcommit (State.nextOp_call hproc)
  refine ⟨jobsAnnounce_step hi.jobs h, hsame ▸ hi.stream, ?_, ?_⟩
  · intro st st' hst hst'
    rcases hback st hst with hst | hnew <;> rcases hback st' hst' with hst' | hnew'
    · exact hi.agree st st' hst hst'
    · exact (honly st' (hnew' ▸ List.mem_singleton.mpr rfl)).1 st hst
    · exact ((honly st (hnew ▸ List.mem_singleton.mpr rfl)).1 st' hst').symm
    · rw [hnew] at hnew'
      exact List.head_eq_of_cons_eq hnew'
  · intro hphase st hfinal hst
    rw [hsame] at hphase
    rw [hjobs] at hst
    have hunchanged : HasStatus docId st s.world.jobs.stores → OnItsWay docId s' st :=
      fun hold => hforth st (hi.coming hphase st hfinal hold)
    cases happlied : out.applied with
    | false =>
      rw [Outcome.world_of_not_applied happlied] at hst
      exact hunchanged hst
    | true =>
      rw [Outcome.world_of_applied happlied] at hst
      rcases jobReply_commit pid j.replies s.world.jobs with hrefused | ⟨hok, hall⟩
      · rw [show (jobHandler pid j.replies .commit s.world.jobs).2 = _ from hrefused] at hst
        exact hunchanged hst
      · rcases hasStatus_all hall hst hfinal with hold | hset
        · exact hunchanged hold
        · obtain ⟨hthis, hseen⟩ := honly st hset
          by_cases hsub : s.world.stream.phase.isSubscribed
          · obtain rfl := hseen hsub happlied
            obtain ⟨hown, hready⟩ := ready_of_mem hobeys.1 hfits hset
            exact Or.inl ⟨pid, (owed_call hproc hobeys hfits h st).mpr ⟨hown, hready, (), congrArg some hok⟩⟩
          · -- the stream has ended, and on this status
            obtain ⟨last, hlast⟩ :=
              Option.isSome_iff_exists.mp (hi.stream.told (hphase.resolve_left hsub))
            have hmem : OnItsWay docId s last := Or.inr (FileStream.mem_endings.mpr (Or.inr hlast))
            obtain rfl := hthis last hmem
            exact hforth last hmem

/-- A step keeps the invariant. -/
private theorem eventsInv_step {l : EventsLabel} (hi : EventsInv docId s) (hheard : Heard docId s l)
    (h : (eventsService lib docId userId).step s l = some s') : EventsInv docId s' := by
  cases l with
  | start pid j => exact eventsInv_start hi h
  | env e => exact eventsInv_stream hi hheard h
  | call pid out =>
    rcases step_cases h with ⟨_, _, hl, -⟩ | ⟨pid', out', j, o, k, hl, hproc, -⟩ | ⟨_, _, hl, -⟩
    · cases hl
    · cases hl
      by_cases hcommit : o = .commit
      · subst hcommit
        exact eventsInv_commit hi hproc hheard h
      · by_cases hpublish : ∃ channel e, o = .publish channel e
        · obtain ⟨channel, e, rfl⟩ := hpublish
          exact eventsInv_publish hi hproc hheard h
        · exact eventsInv_silent hi hproc hcommit (fun channel e ho => hpublish ⟨channel, e, ho⟩) h
    · cases hl

/-- In a state in which no final event is still to be published the stream has been told of the end. -/
private theorem EventsInv.tellsEnd (hi : EventsInv docId s) (howed : ∀ pid, owedBy docId s pid = none) :
    TellsEnd docId s := by
  intro st hfinal hst hquiet
  obtain ⟨hinbox, hphase⟩ := hquiet
  have hcoming : OnItsWay docId s st := by
    refine hi.coming ?_ st hfinal hst
    rcases hphase with hphase | hphase <;> rw [hphase]
    · exact Or.inl rfl
    · exact Or.inr rfl
  have hended : s.world.stream.endedOn = some st := by
    rcases hcoming with ⟨pid, hpid⟩ | hmem
    · rw [howed pid] at hpid
      cases hpid
    · rcases FileStream.mem_endings.mp hmem with ⟨i, hi, -⟩ | hended
      · rw [hinbox] at hi
        cases hi
      · exact hended
  refine ⟨?_, FileStream.endedOn_told hended⟩
  rcases hphase with hphase | hphase
  · -- a stream that listens has not ended
    simp [FileStream.endedOn, hphase, StreamPhase.isOver] at hended
  · exact hphase

end Steps

/-- In every run in which the stream subscribes before the final event is published and the event gets
through, a finished document has ended the stream, as soon as its event is published and all messages have
been taken. -/
theorem told_of_heard (lib : ChunkerLib) (docId userId : Uuid) (w : JobWorld) {ls : List EventsLabel}
    {t : EventsState} (hmeets : (eventsService lib docId userId).Meets (Heard docId)
    (idle ⟨w, .start⟩) ls) (hrun : (eventsService lib docId userId).run (idle ⟨w, .start⟩) ls = some t)
    (howed : ∀ pid, owedBy docId t pid = none) : TellsEnd docId t :=
  (run_induct (fun _ _ _ hi hheard h => eventsInv_step hi hheard h)
    (eventsInv_idle w) hmeets hrun).tellsEnd howed

/-! ### Runs on one document -/

/-- `Heard`, for the executions numbered below `n`. -/
def HeardBelow (docId : Uuid) (n : Nat) (s : EventsState) : EventsLabel → Prop
  | .env _ =>
    s.world.stream.phase.isSubscribed = false → ∀ doc ∈ s.world.jobs.stores.documents.rows, doc.id = docId →
      doc.status.isFinal → ∃ pid < n, owedBy docId s pid = some doc.status
  | .call pid out =>
    (s.nextOp pid = some .commit → ∀ st ∈ finals docId (s.world.jobs.executions pid).pending,
      ((∀ q < n, ∀ st' ∈ owedBy docId s q, st' = st) ∧ ∀ st' ∈ s.world.stream.endings, st' = st) ∧
        (s.world.stream.phase.isSubscribed → out.applied → out = .ok)) ∧
    (owedBy docId s pid ≠ none → s.world.stream.phase.isSubscribed → out.applied)
  | .start .. => True

instance (docId : Uuid) (n : Nat) (s : EventsState) : (l : EventsLabel) → Decidable (HeardBelow docId n s l)
  | .env _ => inferInstanceAs (Decidable (_ → ∀ doc ∈ s.world.jobs.stores.documents.rows, _ → _ → _))
  | .call _ _ => inferInstanceAs (Decidable ((_ → ∀ st ∈ finals _ _, _) ∧ (_ → _ → _)))
  | .start _ _ => isTrue trivial

private theorem heard_of_below {docId : Uuid} {n : Nat} {s : EventsState} {l : EventsLabel} (hs : s.Below n)
    (h : HeardBelow docId n s l) : Heard docId s l := by
  have hnone : ∀ q, n ≤ q → owedBy docId s q = none := by
    intro q hq
    unfold owedBy State.nextOp
    rw [hs q hq]
    rfl
  cases l with
  | start pid j => trivial
  | env e =>
    intro read hread st hfinal hst
    obtain ⟨doc, hdoc, hid, rfl⟩ := hst
    obtain ⟨pid, -, hpid⟩ := h (by rw [hread]; rfl) doc hdoc hid hfinal
    exact ⟨pid, hpid⟩
  | call pid out =>
    refine ⟨fun hnext st hst => ?_, h.2⟩
    obtain ⟨⟨howed, hendings⟩, hseen⟩ := h.1 hnext st hst
    refine ⟨fun st' hst' => ?_, hseen⟩
    rcases hst' with ⟨q, hq⟩ | hst'
    · by_cases hlt : q < n
      · exact howed q hlt st' hq
      · rw [hnone q (Nat.not_lt.mp hlt)] at hq
        cases hq
    · exact hendings st' hst'

/-- Executions that are over owe nothing. -/
private theorem owedBy_of_finished {docId : Uuid} {s : EventsState} (h : s.Finished) (pid : Nat) :
    owedBy docId s pid = none := by
  unfold owedBy State.nextOp
  cases hproc : s.procs pid with
  | none => rfl
  | some p =>
    obtain ⟨r, hr⟩ := h pid p hproc
    obtain ⟨req, prog⟩ := p
    obtain rfl : prog = .done r := hr
    rfl

/-- A stream that subscribes to a finished document is left waiting. -/
theorem stuck_after_gap (lib : ChunkerLib) (docId userId : Uuid) {s : EventsState} {read st : DocStatus}
    (hphase : s.world.stream.phase = .opened read) (hfinal : st.isFinal)
    (hst : HasStatus docId st s.world.jobs.stores) :
    ∃ t, (eventsService lib docId userId).run s (List.replicate 3 (.env ())) = some t ∧
      t.procs = s.procs ∧ ¬ TellsEnd docId t := by
  obtain ⟨⟨jobs, phase, inbox, sent⟩, procs⟩ := s
  obtain rfl : phase = .opened read := hphase
  refine ⟨⟨⟨jobs, .listening, [], sent ++ [⟨"status", ⟨read, none, none⟩⟩]⟩, procs⟩, rfl, rfl,
    fun htells => ?_⟩
  obtain ⟨hclosed, -⟩ := htells st hfinal hst ⟨rfl, Or.inl rfl⟩
  cases hclosed

/-- The document that has been uploaded, and no request for it yet. -/
def eventsStart : EventsState := idle ⟨.uploaded, .start⟩

/-- The stream reads the row, subscribes, and listens; the document is ingested; the stream takes the
messages. -/
def heardRun : List EventsLabel :=
  List.replicate 4 (.env ()) ++ .start 0 ⟨3, plainReplies⟩ :: List.replicate 27 (.call 0 .ok) ++
  List.replicate 5 (.env ())

/-- The stream reads the row; the document is ingested; the stream subscribes, and listens. -/
def gapRun : List EventsLabel :=
  .env () :: .start 0 ⟨3, plainReplies⟩ :: List.replicate 27 (.call 0 .ok) ++ List.replicate 3 (.env ())

/-- What a run of the executions below 1 leaves: the statuses, the stream, and whether the executions are
over. -/
def eventsAfter (ls : List EventsLabel) : Option (List (Uuid × DocStatus) × FileStream × Bool) :=
  ((eventsService plainChunker 3 2).run eventsStart ls).map fun s =>
    (s.world.jobs.stores.documents.rows.map fun doc => (doc.id, doc.status), s.world.stream, s.isFinished 0)

private theorem finished_of_below {t : EventsState} {ls : List EventsLabel} (hbelow : ∀ l ∈ ls, l.Below 1)
    (hrun : (eventsService plainChunker 3 2).run eventsStart ls = some t)
    (hover : t.isFinished 0 = true) : t.Finished := by
  have hlast : t.Below 1 := (idle_below 1 _).run hbelow hrun
  exact hlast.finished (by simpa [List.range_succ] using hover)

/-- The run in which the stream is told, and what it has sent. -/
theorem told_heardRun : ∃ t, (eventsService plainChunker 3 2).run
    (idle ⟨.uploaded, .start⟩) heardRun = some t ∧
    HasStatus 3 .indexed t.world.jobs.stores ∧ t.world.stream.Quiescent ∧ TellsEnd 3 t := by
  have hafter : (eventsAfter heardRun).map (fun x => (x.1, x.2.1.inbox, x.2.1.phase, x.2.2)) =
      some ([(3, .indexed)], [], .closed, true) := by decide +kernel
  obtain ⟨x, hx, hxs⟩ := Option.map_eq_some_iff.mp hafter
  obtain ⟨t, ht, rfl⟩ := Option.map_eq_some_iff.mp hx
  simp only [Prod.mk.injEq] at hxs
  obtain ⟨hrows, hinbox, hphase, hover⟩ := hxs
  have hbelow : ∀ l ∈ heardRun, l.Below 1 := of_decide_eq_true rfl
  have hmeets : (eventsService plainChunker 3 2).Meets (Heard 3) (idle ⟨.uploaded, .start⟩) heardRun := by
    refine meets_of_below 1 (HeardBelow 3 1) (fun s l hs h => heard_of_below hs h) (idle_below 1 _) ?_
    decide +kernel
  refine ⟨t, ht, ?_, ⟨hinbox, Or.inr hphase⟩, told_of_heard plainChunker 3 2 .uploaded hmeets ht
      (owedBy_of_finished (finished_of_below hbelow ht hover))⟩
  exact hasStatus_iff.mpr (hrows ▸ List.mem_singleton.mpr rfl)

/-- The document is indexed between the read of its row and the SUBSCRIBE; the stream waits, and no
execution is left to publish anything. -/
theorem not_always_told : ∃ t, (eventsService plainChunker 3 2).run (idle ⟨.uploaded, .start⟩) gapRun =
    some t ∧ t.Finished ∧ (∀ pid, owedBy 3 t pid = none) ∧ ¬ TellsEnd 3 t := by
  have hafter : (eventsAfter gapRun).map (fun x => (x.1, x.2.1.inbox, x.2.1.phase, x.2.2)) =
      some ([(3, .indexed)], [], .listening, true) := by decide +kernel
  obtain ⟨x, hx, hxs⟩ := Option.map_eq_some_iff.mp hafter
  obtain ⟨t, ht, rfl⟩ := Option.map_eq_some_iff.mp hx
  simp only [Prod.mk.injEq] at hxs
  obtain ⟨hrows, hinbox, hphase, hover⟩ := hxs
  have hfinished := finished_of_below (of_decide_eq_true rfl) ht hover
  refine ⟨t, ht, hfinished, owedBy_of_finished hfinished, fun htells => ?_⟩
  have hindexed : HasStatus 3 .indexed t.world.jobs.stores :=
    hasStatus_iff.mpr (hrows ▸ List.mem_singleton.mpr rfl)
  obtain ⟨hclosed, -⟩ := htells .indexed rfl hindexed ⟨hinbox, Or.inl hphase⟩
  rw [hphase] at hclosed
  cases hclosed

end LegalRag
