import LegalRag.Ingestion.Owner
import LegalRag.Worker.Delivery

/-!
# The API and the ingestion jobs on one database

The API process and the worker share Postgres, MinIO and the broker.  The worker's executions of
`process_document` are a service of their own, and its steps are steps of the environment of the API, so
that the calls of requests and jobs interleave in any order.

`apiHandler_rows` says what a call of the API does to the rows of `documents`, committed or pending in a
session.  The invariant is `Sound`; `platform_step` says that every step keeps it, and whose rows it may
change.
-/

namespace LegalRag

open Calls Service Relational

/-- An execution of a job: the document of its argument, and what is outside the stores replies to it. -/
structure IngestionJob where
  docId : Uuid
  replies : JobReplies

/-- The executions of the jobs. -/
def ingestionService (lib : ChunkerLib) : Service JobCalls JobErr JobWorld IngestionJob Empty JobResult where
  program j := processDocument lib j.docId
  enter := JobWorld.begin
  handle pid j := jobHandler pid j.replies
  env := nofun

abbrev JobState := Service.State JobCalls JobErr JobWorld IngestionJob JobResult

abbrev JobLabel := Service.Label JobErr IngestionJob Empty

/-- What the API process calls, and what only the worker uses. -/
structure Platform where
  api : ApiWorld
  chunks : Table DocumentChunk.key
  points : List Point
  executions : Nat → Execution
  published : List (String × StatusEvent)
  jobs : Nat → Option (Proc JobCalls JobErr IngestionJob JobResult)

namespace Platform

/-- The primary key of `documents` holds. -/
def Keyed (p : Platform) : Prop := (p.api.documents.map Document.key).Nodup

instance (p : Platform) : Decidable p.Keyed := inferInstanceAs (Decidable (List.Nodup _))

/-- The worker's side. -/
def jobState (p : Platform) (h : p.Keyed) : JobState :=
  ⟨⟨⟨⟨p.api.documents, h⟩, p.chunks, p.points, p.api.objects, p.api.nextUuid⟩, p.executions, p.published⟩,
    p.jobs⟩

/-- The platform after a step of the worker. -/
def withJobs (p : Platform) (s : JobState) : Platform where
  api := { p.api with
    documents := s.world.stores.documents.rows
    objects := s.world.stores.objects
    nextUuid := s.world.stores.nextUuid }
  chunks := s.world.stores.chunks
  points := s.world.stores.points
  executions := s.world.executions
  published := s.world.published
  jobs := s.procs

/-- An execution begins for a job that the worker has picked up. -/
def Accepts (p : Platform) : JobLabel → Prop
  | .start _ j => ∃ x ∈ p.api.broker.running, x.function = "process_document" ∧ x.arg = toString j.docId
  | _ => True

instance (p : Platform) : ∀ l, Decidable (p.Accepts l)
  | .start _ j =>
    inferInstanceAs (Decidable (∃ x ∈ p.api.broker.running, x.function = "process_document" ∧
      x.arg = toString j.docId))
  | .call .. => isTrue trivial
  | .env _ => isTrue trivial

end Platform

/-- A step of the worker: with the broker, or in one of its executions. -/
inductive PlatformStep where
  | broker (e : WorkerStep)
  | job (l : JobLabel)

/-- What a step of the worker does. -/
def PlatformStep.step (worker : WorkerSettings) (lib : ChunkerLib) : PlatformStep → Platform → Option Platform
  | .broker e, p => (e.step worker p.api).map fun w => { p with api := w }
  | .job l, p =>
    if h : p.Keyed then
      if p.Accepts l then ((ingestionService lib).step (p.jobState h) l).map p.withJobs else none
    else none

/-- The API process, with the worker and its jobs as the environment. -/
def platformService (cfg : ApiSettings) (worker : WorkerSettings) (lib : ChunkerLib) :
    Service ApiCalls ApiErr Platform ApiRequest PlatformStep ApiReply where
  program := (apiService cfg worker).program
  enter rid p := { p with api := p.api.openSessions rid }
  handle rid req := fun o p =>
    (((apiService cfg worker).handle rid req o p.api).1,
      { p with api := ((apiService cfg worker).handle rid req o p.api).2 })
  env := PlatformStep.step worker lib

abbrev PlatformState := Service.State ApiCalls ApiErr Platform ApiRequest ApiReply

abbrev PlatformLabel := Service.Label ApiErr ApiRequest PlatformStep

/-- An empty database, no job, no request. -/
def Platform.blank : Platform := ⟨.blank, ⟨[], List.nodup_nil⟩, [], fun _ => .start, [], fun _ => none⟩

/-! ### What a call does to the rows -/

/-- Where rows of `documents` are: in the table, or in a session that has not committed them. -/
abbrev RowPlace := Option (Nat × SessionRef)

/-- The rows of a place. -/
def ApiWorld.rowsAt (w : ApiWorld) : RowPlace → List Document
  | none => w.documents
  | some (rid, ref) => (w.sessions rid ref).newDocuments

/-- What a call of request `rid` does to the rows. -/
inductive RowsEffect (rid : Nat) (w w' : ApiWorld) : ApiOp → Prop
  | same {o : ApiOp} (rows : w'.rowsAt = w.rowsAt) (uuid : w.nextUuid ≤ w'.nextUuid) : RowsEffect rid w w' o
  | insert (ref : SessionRef) (n : NewDocument) (d : Document) (new : d.toNewDocument = n)
      (id : d.id = w.nextUuid)
      (rows : w'.rowsAt = Function.update w.rowsAt (some (rid, ref)) (w.rowsAt (some (rid, ref)) ++ [d]))
      (uuid : w'.nextUuid = w.nextUuid + 1) : RowsEffect rid w w' (.createDocument ref n)
  | commit (ref : SessionRef)
      (rows : w'.rowsAt = Function.update (Function.update w.rowsAt none
        (w.rowsAt none ++ w.rowsAt (some (rid, ref)))) (some (rid, ref)) [])
      (uuid : w'.nextUuid = w.nextUuid) : RowsEffect rid w w' (.commit ref)
  | drop (ref : SessionRef) (rows : w'.rowsAt = Function.update w.rowsAt (some (rid, ref)) [])
      (uuid : w'.nextUuid = w.nextUuid) : RowsEffect rid w w' (.commit ref)

section Api

variable {rid : Nat} {agent : AgentReplies} {w : ApiWorld}

/-- A session whose pending rows are replaced. -/
private theorem rowsAt_setSession (ref : SessionRef) (f : Session → Session) :
    (w.setSession rid ref f).rowsAt =
      Function.update w.rowsAt (some (rid, ref)) (f (w.sessions rid ref)).newDocuments := by
  funext place
  rcases place with _ | ⟨rid', ref'⟩
  · rw [Function.update_of_ne (by simp)]
    rfl
  · simp only [ApiWorld.rowsAt, ApiWorld.setSession]
    by_cases hrid : rid' = rid
    · subst hrid
      by_cases href : ref' = ref
      · subst href
        simp
      · have hne : (some (rid', ref') : RowPlace) ≠ some (rid', ref) := by simp [href]
        rw [Function.update_self, Function.update_of_ne href, Function.update_of_ne hne]
        rfl
    · have hne : (some (rid', ref') : RowPlace) ≠ some (rid, ref) := by simp [hrid]
      rw [Function.update_of_ne hrid, Function.update_of_ne hne]
      rfl

/-- A session whose pending rows stay. -/
private theorem rowsAt_setSession_of_eq (ref : SessionRef) {f : Session → Session}
    (hf : (f (w.sessions rid ref)).newDocuments = (w.sessions rid ref).newDocuments) :
    (w.setSession rid ref f).rowsAt = w.rowsAt := by
  rw [rowsAt_setSession, hf]
  exact Function.update_eq_self _ _

private theorem rowsAt_touch (ref : SessionRef) : (w.touch rid ref).rowsAt = w.rowsAt :=
  rowsAt_setSession_of_eq ref rfl

private theorem rowsAt_touch_setSession (ref : SessionRef) (f : Session → Session)
    (hf : ∀ s, (f s).newDocuments = s.newDocuments) :
    ((w.touch rid ref).setSession rid ref f).rowsAt = w.rowsAt :=
  (rowsAt_setSession_of_eq ref (hf _)).trans (rowsAt_touch ref)

private theorem rowsAt_applyCommit (ref : SessionRef) :
    (w.applyCommit rid ref).rowsAt =
      Function.update w.rowsAt none (w.rowsAt none ++ w.rowsAt (some (rid, ref))) := by
  funext place
  cases place with
  | none => rw [Function.update_self]; rfl
  | some p => rw [Function.update_of_ne (by simp)]; rfl

/-- The INSERT of a document fails, or puts the row it returns into the session. -/
theorem createDocument_rows (rid : Nat) (agent : AgentReplies) (ref : SessionRef) (n : NewDocument)
    (w : ApiWorld) :
    ((∃ e, (apiHandler rid agent (.createDocument ref n) w).1 = .error e) ∧
        (apiHandler rid agent (.createDocument ref n) w).2.rowsAt = w.rowsAt ∧
        (apiHandler rid agent (.createDocument ref n) w).2.nextUuid = w.nextUuid) ∨
      ∃ d, (apiHandler rid agent (.createDocument ref n) w).1 = .ok d ∧ d.toNewDocument = n ∧
        d.id = w.nextUuid ∧
        (apiHandler rid agent (.createDocument ref n) w).2.rowsAt =
          Function.update w.rowsAt (some (rid, ref)) (w.rowsAt (some (rid, ref)) ++ [d]) ∧
        (apiHandler rid agent (.createDocument ref n) w).2.nextUuid = w.nextUuid + 1 := by
  have heq : apiHandler rid agent (.createDocument ref n) w =
      if ApiWorld.clashes n (w.documents ++ (w.sessions rid ref).newDocuments) then
        (.error (.other "uq_doc_checksum_per_tenant"), (w.touch rid ref).tick)
      else (.ok (w.documentRow rid ref n), ApiWorld.tick { (w.touch rid ref).setSession rid ref (fun s =>
        { s with newDocuments := s.newDocuments ++ [w.documentRow rid ref n] })
        with nextUuid := w.nextUuid + 1 }) := by
    simp only [apiHandler, apiReply]
    split <;> rfl
  rw [heq]
  by_cases hclash : ApiWorld.clashes n (w.documents ++ (w.sessions rid ref).newDocuments)
  · left
    rw [if_pos hclash]
    exact ⟨⟨_, rfl⟩, @rowsAt_touch rid w ref, rfl⟩
  · right
    rw [if_neg hclash]
    refine ⟨_, rfl, rfl, rfl, ?_, rfl⟩
    have hnew : ((w.touch rid ref).sessions rid ref).newDocuments = (w.sessions rid ref).newDocuments :=
      congrFun (rowsAt_touch ref) (some (rid, ref))
    have hrows : ((w.touch rid ref).setSession rid ref fun s =>
        { s with newDocuments := s.newDocuments ++ [w.documentRow rid ref n] }).rowsAt =
          Function.update w.rowsAt (some (rid, ref))
            (w.rowsAt (some (rid, ref)) ++ [w.documentRow rid ref n]) := by
      rw [rowsAt_setSession, rowsAt_touch, hnew]
      rfl
    exact hrows

/-- The COMMIT fails and drops the rows of the session, or puts them into the table. -/
theorem commit_rows (rid : Nat) (agent : AgentReplies) (ref : SessionRef) (w : ApiWorld) :
    (apiHandler rid agent (.commit ref) w).2.nextUuid = w.nextUuid ∧
      (((∃ e, (apiHandler rid agent (.commit ref) w).1 = .error e) ∧
          (apiHandler rid agent (.commit ref) w).2.rowsAt = Function.update w.rowsAt (some (rid, ref)) []) ∨
        (apiHandler rid agent (.commit ref) w).2.rowsAt =
          Function.update (Function.update w.rowsAt none (w.rowsAt none ++ w.rowsAt (some (rid, ref))))
            (some (rid, ref)) []) := by
  have heq : apiHandler rid agent (.commit ref) w =
      if (w.sessions rid ref).newDocuments.any fun d => ApiWorld.clashes d.toNewDocument w.documents then
        (.error (.other "uq_doc_checksum_per_tenant"), (w.setSession rid ref fun _ => Session.fresh).tick)
      else (.ok (), ((w.applyCommit rid ref).setSession rid ref fun s =>
        { s with begun := none, newMessages := [], newDocuments := [] }).tick) := by
    simp only [apiHandler, apiReply]
    split <;> rfl
  have htick : ∀ v : ApiWorld, v.tick.rowsAt = v.rowsAt := fun _ => rfl
  rw [heq]
  by_cases hclash : (w.sessions rid ref).newDocuments.any fun d =>
    ApiWorld.clashes d.toNewDocument w.documents
  · rw [if_pos hclash]
    refine ⟨rfl, Or.inl ⟨⟨_, rfl⟩, ?_⟩⟩
    rw [htick, rowsAt_setSession]
    rfl
  · rw [if_neg hclash]
    refine ⟨rfl, Or.inr ?_⟩
    rw [htick, rowsAt_setSession, rowsAt_applyCommit]

/-- What a call does to the rows. -/
theorem apiHandler_rows (rid : Nat) (agent : AgentReplies) (o : ApiOp) (w : ApiWorld) :
    RowsEffect rid w (apiHandler rid agent o w).2 o := by
  have htouch : ∀ ref, (w.touch rid ref).tick.rowsAt = w.rowsAt := fun ref => @rowsAt_touch rid w ref
  have hsucc : w.nextUuid ≤ w.nextUuid + 1 := Nat.le_succ _
  cases o with
  | getConversation ref convId userId =>
    refine .same ?_ (Nat.le_refl _)
    exact @rowsAt_touch_setSession rid w ref (fun s =>
      { s with conv := (w.conversations.find? fun c => c.id = convId ∧ c.userId = userId).or s.conv })
      fun _ => rfl
  | addMessage ref m =>
    refine .same ?_ hsucc
    exact @rowsAt_touch_setSession rid w ref (fun s =>
      { s with
        conv := ((w.loadConversation rid ref m.conversationId).map fun c =>
          { c with messageCount := c.messageCount + 1 }).or s.conv
        newMessages := s.newMessages ++ [w.messageRow rid ref m] }) fun _ => rfl
  | recentMessages ref convId n => exact .same (htouch ref) (Nat.le_refl _)
  | byChecksum ref tenantId checksum => exact .same (htouch ref) (Nat.le_refl _)
  | flush ref => exact .same (htouch ref) (Nat.le_refl _)
  | createDocument ref n =>
    rcases createDocument_rows rid agent ref n w with ⟨-, hrows, huuid⟩ | ⟨d, -, hnew, hid, hrows, huuid⟩
    · exact .same hrows (Nat.le_of_eq huuid.symm)
    · exact .insert ref n d hnew hid hrows huuid
  | commit ref =>
    obtain ⟨huuid, ⟨-, hrows⟩ | hrows⟩ := commit_rows rid agent ref w
    · exact .drop ref hrows huuid
    · exact .commit ref hrows huuid
  | enqueueJob function arg =>
    simp only [apiHandler, apiReply]
    split
    · exact .same rfl (Nat.le_refl _)
    · exact .same rfl hsucc
  | uuid4 => exact .same rfl hsucc
  | _ => exact .same rfl (Nat.le_refl _)

/-- A request begins with no pending rows. -/
theorem openSessions_rows (rid : Nat) (w : ApiWorld) :
    (w.openSessions rid).documents = w.documents ∧ (w.openSessions rid).nextUuid = w.nextUuid ∧
      ∀ rid' ref, (w.openSessions rid).rowsAt (some (rid', ref)) =
        if rid' = rid then [] else w.rowsAt (some (rid', ref)) := by
  refine ⟨rfl, rfl, ?_⟩
  intro rid' ref
  simp only [ApiWorld.rowsAt, ApiWorld.openSessions]
  by_cases h : rid' = rid
  · subst h
    rw [Function.update_self, if_pos rfl]
    rfl
  · rw [Function.update_of_ne h, if_neg h]

end Api

/-! ### The invariant -/

/-- The rows are still there, perhaps with another status, among others. -/
def Grows (rows rows' : List Document) : Prop := ∀ d ∈ rows, ∃ d' ∈ rows', d.SameAs d'

private theorem Grows.of_subset {rows rows' : List Document} (h : rows ⊆ rows') : Grows rows rows' :=
  fun d hd => ⟨d, h hd, .refl d⟩

private theorem Grows.refl (rows : List Document) : Grows rows rows := .of_subset (List.Subset.refl _)

/-- The row that a job has read is still in the table. -/
def RowFits (_ : IngestionJob) (_ : Nat) (row : Option Document) (w : JobWorld) : Prop :=
  ∀ doc, row = some doc → ∃ r ∈ w.stores.documents.rows, doc.SameAs r

private theorem RowFits.grows {j : IngestionJob} {pid : Nat} {row : Option Document} {w w' : JobWorld}
    (h : RowFits j pid row w)
    (hg : Grows w.stores.documents.rows w'.stores.documents.rows) : RowFits j pid row w' := by
  intro doc hdoc
  obtain ⟨r, hr, hs⟩ := h doc hdoc
  obtain ⟨r', hr', hs'⟩ := hg r hr
  exact ⟨r', hr', hs.trans hs'⟩

/-- The executions of the jobs keep to their rows. -/
abbrev JobsRead (s : JobState) : Prop := s.Obeys (fun j => readsRow j.docId) (fun _ _ _ => True) RowFits

/-- No two rows share an id, every point has its row, and every job keeps to the row it has read. -/
structure Sound (p : Platform) : Prop where
  ids : Relational.Apart (fun place => (p.api.rowsAt place).map Document.id) p.api.nextUuid
  points : ∀ pt ∈ p.points, ∃ d ∈ p.api.documents, pt.Of d
  jobs : ∀ h, JobsRead (p.jobState h)

theorem sound_blank : Sound .blank where
  ids := by
    have hnil : (fun place => (Platform.blank.api.rowsAt place).map Document.id) = fun _ => [] := by
      funext place
      rcases place with _ | ⟨rid, ref⟩ <;> rfl
    rw [hnil]
    constructor
    · exact fun _ => List.nodup_nil
    · rintro k k' i hi
      cases hi
    · rintro k i hi
      cases hi
  points := by
    rintro pt hpt
    cases hpt
  jobs h := by
    intro pid proc hproc
    cases hproc

theorem Sound.keyed {p : Platform} (h : Sound p) : p.Keyed := h.ids.nodup none

/-- A row of the table is determined by its id. -/
theorem Sound.eq_of_id {p : Platform} (h : Sound p) {d d' : Document} (hd : d ∈ p.api.documents)
    (hd' : d' ∈ p.api.documents) (he : d.id = d'.id) : d = d' :=
  List.inj_on_of_nodup_map h.keyed hd hd' he

/-- What a step does to the rows: those of the table stay, and only a request's own calls change its
pending ones. -/
structure RowsStep (p p' : Platform) (pid : Option Nat) : Prop where
  grows : Grows p.api.documents p'.api.documents
  others : ∀ q ref, pid ≠ some q → p'.api.rowsAt (some (q, ref)) = p.api.rowsAt (some (q, ref))

variable {cfg : ApiSettings} {worker : WorkerSettings} {lib : ChunkerLib}

private theorem JobsRead.grows {s s' : JobState} (h : JobsRead s) (hp : s'.procs = s.procs)
    (hg : Grows s.world.stores.documents.rows s'.world.stores.documents.rows) : JobsRead s' := by
  intro pid proc hproc
  rw [hp] at hproc
  obtain ⟨row, hrow, hfits⟩ := h pid proc hproc
  exact ⟨row, hrow, hfits.grows hg⟩

/-- A change of the API's part in which the table grows. -/
private theorem Sound.api {p : Platform} (h : Sound p) {w : ApiWorld}
    (hids : Relational.Apart (fun place => (w.rowsAt place).map Document.id) w.nextUuid)
    (hg : Grows p.api.documents w.documents) : Sound { p with api := w } where
  ids := hids
  points pt hpt := by
    obtain ⟨d, hd, hof⟩ := h.points pt hpt
    obtain ⟨d', hd', hs⟩ := hg d hd
    exact ⟨d', hd', hof.sameAs hs⟩
  jobs hk := by
    refine (h.jobs h.keyed).grows rfl ?_
    exact hg

/-- The ids after a call of the API. -/
private theorem apart_rows {w w' : ApiWorld} {rid : Nat} {o : ApiOp} (heff : RowsEffect rid w w' o)
    (h : Relational.Apart (fun place => (w.rowsAt place).map Document.id) w.nextUuid) :
    Relational.Apart (fun place => (w'.rowsAt place).map Document.id) w'.nextUuid := by
  have hmap : ∀ (f : RowPlace → List Document) (place : RowPlace) (rows : List Document),
      (fun q => (Function.update f place rows q).map Document.id) =
        Function.update (fun q => (f q).map Document.id) place (rows.map Document.id) := by
    intro f place rows
    funext q
    by_cases hq : q = place
    · subst hq
      rw [Function.update_self, Function.update_self]
    · rw [Function.update_of_ne hq, Function.update_of_ne hq]
  cases heff with
  | same rows uuid =>
    rw [rows]
    exact h.mono uuid
  | insert ref n d new id rows uuid =>
    rw [rows, uuid, hmap, List.map_append, List.map_singleton, id]
    exact h.insert _
  | commit ref rows uuid =>
    rw [rows, uuid, hmap, hmap, List.map_append, List.map_nil]
    exact h.move (by simp)
  | drop ref rows uuid =>
    rw [rows, uuid, hmap, List.map_nil]
    exact h.clear _

/-- The table after a call of the API. -/
theorem grows_rows {w w' : ApiWorld} {rid : Nat} {o : ApiOp} (heff : RowsEffect rid w w' o) :
    Grows w.documents w'.documents := by
  have hnone : ∀ v : ApiWorld, v.documents = v.rowsAt none := fun _ => rfl
  refine .of_subset ?_
  rw [hnone, hnone]
  cases heff with
  | same rows uuid => rw [rows]; exact List.Subset.refl _
  | insert ref n d new id rows uuid =>
    rw [rows, Function.update_of_ne (by simp)]
    exact List.Subset.refl _
  | commit ref rows uuid =>
    rw [rows, Function.update_of_ne (by simp), Function.update_self]
    exact List.subset_append_left _ _
  | drop ref rows uuid =>
    rw [rows, Function.update_of_ne (by simp)]
    exact List.Subset.refl _

/-- The pending rows of the other requests. -/
private theorem others_rows {w w' : ApiWorld} {rid : Nat} {o : ApiOp} (heff : RowsEffect rid w w' o) {q : Nat}
    (hq : rid ≠ q) (ref : SessionRef) : w'.rowsAt (some (q, ref)) = w.rowsAt (some (q, ref)) := by
  have hne : ∀ ref', (some (q, ref) : RowPlace) ≠ some (rid, ref') := by
    intro ref' he
    simp only [Option.some.injEq, Prod.mk.injEq] at he
    exact hq he.1.symm
  cases heff with
  | same rows uuid => rw [rows]
  | insert ref' n d new id rows uuid => rw [rows, Function.update_of_ne (hne ref')]
  | commit ref' rows uuid => rw [rows, Function.update_of_ne (hne ref'), Function.update_of_ne (by simp)]
  | drop ref' rows uuid => rw [rows, Function.update_of_ne (hne ref')]

/-- A request begins. -/
private theorem sound_open {p : Platform} (h : Sound p) (pid : Nat) :
    Sound { p with api := p.api.openSessions pid } ∧
      RowsStep p { p with api := p.api.openSessions pid } (some pid) := by
  obtain ⟨hdocs, huuid, hrows⟩ := openSessions_rows pid p.api
  have hg : Grows p.api.documents (p.api.openSessions pid).documents := .refl _
  refine ⟨h.api ?_ hg, hg, ?_⟩
  · rw [huuid]
    refine h.ids.sub fun place => ?_
    rcases place with _ | ⟨rid, ref⟩
    · exact List.Sublist.refl _
    · rw [hrows]
      split
      · exact List.nil_sublist _
      · exact List.Sublist.refl _
  · intro q ref hq
    rw [hrows, if_neg]
    rintro rfl
    exact hq rfl

/-- What a call tells a job about its row. -/
private theorem rowFits_call {j : IngestionJob} {pid : Nat} {row : Option Document} {o : JobOp} {w : JobWorld}
    {out : Outcome JobErr} {rep : Except JobErr o.Resp} (hfits : RowFits j pid row w)
    (hrep : out.reply (jobHandler pid j.replies) o w = some rep) :
    (∀ a, rep = .ok a → (readsRow j.docId).replies row o a) ∧
      RowFits j pid ((readsRow j.docId).after row o rep) (out.world (jobHandler pid j.replies) o w) := by
  have hkept := jobReply_rows pid j.replies o w
  have hfits' : RowFits j pid row (jobReply pid j.replies o w).2 :=
    hfits.grows fun d hd => Related.exists_right hkept.rows hd
  refine Protocol.after_fits ?_ ?_ hrep
  · intro a ha
    cases o with
    | getInternal d' =>
      have hfind : w.stores.documents.rows.find? (fun d => d.key = d') = a := Except.ok.inj ha
      refine ⟨?_, ?_⟩
      · rintro doc rfl
        have hkey := List.find?_some hfind
        exact of_decide_eq_true hkey
      · rintro doc rfl
        exact ⟨doc, List.mem_of_find?_eq_some hfind, .refl doc⟩
    | _ => exact ⟨trivial, hfits'⟩
  · rintro e v (rfl | rfl)
    · exact hfits
    · exact hfits'

/-- A step of an execution of a job. -/
private theorem sound_job {p p' : Platform} (h : Sound p) {l : JobLabel}
    (hstep : PlatformStep.step worker lib (.job l) p = some p') : Sound p' ∧ RowsStep p p' none := by
  have hread := h.jobs h.keyed
  simp only [PlatformStep.step, dif_pos h.keyed, Option.ite_none_right_eq_some, Option.map_eq_some_iff]
    at hstep
  obtain ⟨-, s', hstep, rfl⟩ := hstep
  -- what the step does to the stores
  have hkept : ∃ o, RowsKept o (p.jobState h.keyed).world.stores s'.world.stores ∧
      ∀ new, o = .upsert new → ∃ d ∈ p.api.documents, ∀ pt ∈ new, pt.Of d := by
    rcases step_cases hstep with ⟨pid, j, rfl, -, rfl⟩ | ⟨pid, out, j, o, k, rfl, hproc, rfl⟩ | ⟨e, -⟩
    · exact ⟨.now, .of_rows rfl (Nat.le_refl _) (List.Subset.refl _), by rintro new ⟨⟩⟩
    · refine ⟨o, ?_, ?_⟩
      · rw [resume_world]
        rcases Outcome.world_eq (jobHandler pid j.replies) o (p.jobState h.keyed).world out with hw | hw
        · show RowsKept o _ (out.world (jobHandler pid j.replies) o (p.jobState h.keyed).world).stores
          rw [hw]
          exact ⟨sameAs_rows _, Nat.le_refl _, fun pt hpt => Or.inl hpt⟩
        · show RowsKept o _ (out.world (jobHandler pid j.replies) o (p.jobState h.keyed).world).stores
          rw [hw]
          exact jobReply_rows pid j.replies o _
      · rintro new rfl
        obtain ⟨row, ⟨hallows, -⟩, hfits⟩ := hread pid _ hproc
        obtain ⟨doc, rfl, hof⟩ := hallows
        obtain ⟨r, hr, hs⟩ := hfits doc rfl
        exact ⟨r, hr, fun pt hpt => (hof pt hpt).sameAs hs⟩
    · cases e
  obtain ⟨o, ⟨hrows, huuid, hpoints⟩, hnew⟩ := hkept
  have hg : Grows p.api.documents s'.world.stores.documents.rows := fun d hd =>
    Related.exists_right hrows hd
  refine ⟨⟨?_, ?_, ?_⟩, ⟨hg, fun _ _ _ => rfl⟩⟩
  · have hids : (fun place => ((p.withJobs s').api.rowsAt place).map Document.id) =
        fun place => (p.api.rowsAt place).map Document.id := by
      funext place
      rcases place with _ | ⟨rid, ref⟩
      · exact (Related.map_eq_map (fun _ _ hsame => hsame.1.symm) hrows).symm
      · rfl
    rw [hids]
    exact h.ids.mono huuid
  · intro pt hpt
    rcases hpoints pt hpt with hold | ⟨new, ho, hpt⟩
    · obtain ⟨d, hd, hof⟩ := h.points pt hold
      obtain ⟨d', hd', hs⟩ := hg d hd
      exact ⟨d', hd', hof.sameAs hs⟩
    · obtain ⟨d, hd, hof⟩ := hnew new ho
      obtain ⟨d', hd', hs⟩ := hg d hd
      exact ⟨d', hd', (hof pt hpt).sameAs hs⟩
  · intro hk
    have hjobs : JobsRead s' := by
      refine obeys_step ?_ ?_ ?_ hread hstep
      · intro pid j w
        refine ⟨none, processDocument_reads, ?_⟩
        rintro doc hdoc
        cases hdoc
      · intro pid j o k out row rep _ _ _ hfits hrep
        exact rowFits_call hfits hrep
      · intro q proc row _ _ _ hfits
        exact hfits.grows hg
    exact hjobs

/-- Every step keeps the invariant. -/
theorem platform_step {s s' : PlatformState} {l : PlatformLabel} (hs : Sound s.world)
    (h : (platformService cfg worker lib).step s l = some s') :
    Sound s'.world ∧ RowsStep s.world s'.world l.pid := by
  rcases step_cases h with ⟨pid, r, rfl, -, rfl⟩ | ⟨pid, out, req, o, k, rfl, hproc, rfl⟩ |
    ⟨e, w, rfl, hw, rfl⟩
  · exact sound_open hs pid
  · obtain ⟨agent, hh⟩ := handle_eq cfg worker pid req
    rw [resume_world]
    rcases Outcome.world_eq ((platformService cfg worker lib).handle pid req) o s.world out with hw | hw
    · rw [hw]
      exact ⟨hs, .refl _, fun _ _ _ => rfl⟩
    · have heff := apiHandler_rows pid agent o s.world.api
      have hworld : ((platformService cfg worker lib).handle pid req o s.world).2 =
          { s.world with api := (apiHandler pid agent o s.world.api).2 } := by
        show { s.world with api := ((apiService cfg worker).handle pid req o s.world.api).2 } = _
        rw [hh]
      rw [hw, hworld]
      refine ⟨hs.api (apart_rows heff hs.ids) (grows_rows heff), grows_rows heff, ?_⟩
      intro q ref hq
      refine others_rows heff ?_ ref
      rintro rfl
      exact hq rfl
  · cases e with
    | job l => exact @sound_job worker lib s.world w hs l hw
    | broker e =>
      simp only [platformService, PlatformStep.step, Option.map_eq_some_iff, WorkerStep.step] at hw
      obtain ⟨-, ⟨b, -, rfl⟩, rfl⟩ := hw
      exact ⟨hs.api hs.ids (.refl _), .refl _, fun _ _ _ => rfl⟩

end LegalRag
