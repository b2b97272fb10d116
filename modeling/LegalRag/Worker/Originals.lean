import LegalRag.Api.Originals
import LegalRag.Ingestion.Provenance
import LegalRag.Worker.Ownership

/-!
# The original of a document

Requests and jobs write to one bucket.  The object of every row of `documents`, committed or pending, holds
the bytes that were uploaded, with the number and the hash that the row says, and no later step touches it
(`originals_kept`).

The invariant follows the ids that uploads draw for their objects: each belongs to the request that has drawn
it, and no row has a key of it until that request inserts one (`StoringFits`).
-/

namespace LegalRag

open Calls Service

/-- The object of the row holds bytes that an upload accepts, as many as the row says and with its hash. -/
structure Document.HasOriginal (cfg : ApiSettings) (objects : String → Option (List UInt8)) (d : Document)
    (data : List UInt8) : Prop where
  object : objects d.storageKey = some data
  accepted : cfg.upload.Accepts data
  size : d.sizeBytes = data.length
  hash : d.checksumSha256 = cfg.sha256 data

/-- The row has its original, under the key of an id that has been drawn. -/
structure Original (cfg : ApiSettings) (w : ApiWorld) (d : Document) : Prop where
  key : ∃ t i, d.storageKey = rawKey t i ∧ i < w.nextUuid
  original : ∃ data, d.HasOriginal cfg w.objects data

/-- No row has a key of the id. -/
def ApiWorld.Unused (w : ApiWorld) (i : Uuid) : Prop :=
  ∀ place, ∀ d ∈ w.rowsAt place, ∀ t, d.storageKey ≠ rawKey t i

/-- What an upload knows: an id that it has drawn is its own, and no row has a key of it. -/
def StoringFits (cfg : ApiSettings) (owner : Uuid → Nat) : ApiRequest → Nat → StoringPhase → ApiWorld → Prop
  | .upload _, pid, .drawn i, w => i < w.nextUuid ∧ owner i = pid ∧ w.Unused i
  | .upload c, pid, .stored i data, w =>
    (i < w.nextUuid ∧ owner i = pid ∧ w.Unused i) ∧ w.objects (rawKey c.tenantId i) = some data ∧
      cfg.upload.Accepts data
  | _, _, _, _ => True

/-- A step that inserts no row and leaves the objects of all ids alone. -/
structure LeavesOriginals (w w' : ApiWorld) : Prop where
  uuid : w.nextUuid ≤ w'.nextUuid
  rows : ∀ place, ∀ d' ∈ w'.rowsAt place, ∃ place', ∃ d ∈ w.rowsAt place', d.SameAs d'
  objects : ∀ t i, w'.objects (rawKey t i) = w.objects (rawKey t i)

section Frame

variable {cfg : ApiSettings} {w w' : ApiWorld}

theorem Document.SameAs.storageKey {d d' : Document} (h : d.SameAs d') : d'.storageKey = d.storageKey :=
  congrArg NewDocument.storageKey h.2

theorem Document.HasOriginal.sameAs {objects : String → Option (List UInt8)} {d d' : Document}
    {data : List UInt8} (h : d.HasOriginal cfg objects data) (hs : d.SameAs d') :
    d'.HasOriginal cfg objects data where
  object := hs.storageKey ▸ h.object
  accepted := h.accepted
  size := (congrArg NewDocument.sizeBytes hs.2).trans h.size
  hash := (congrArg NewDocument.checksumSha256 hs.2).trans h.hash

/-- A row whose object has not changed. -/
private theorem Original.mono {d d' : Document} (h : Original cfg w d) (hs : d.SameAs d')
    (huuid : w.nextUuid ≤ w'.nextUuid) (hobject : w'.objects d.storageKey = w.objects d.storageKey) :
    Original cfg w' d' := by
  obtain ⟨⟨t, i, hkey, hi⟩, data, hdata⟩ := h
  refine ⟨⟨t, i, hs.storageKey.trans hkey, Nat.lt_of_lt_of_le hi huuid⟩, data, ?_⟩
  have hsame := hdata.sameAs hs
  exact ⟨by rw [hs.storageKey, hobject, hdata.object], hsame.accepted, hsame.size, hsame.hash⟩

private theorem LeavesOriginals.original {d d' : Document} (h : LeavesOriginals w w') (hd : Original cfg w d)
    (hs : d.SameAs d') : Original cfg w' d' := by
  obtain ⟨t, i, hkey, -⟩ := hd.key
  exact hd.mono hs h.uuid (hkey ▸ h.objects t i)

private theorem LeavesOriginals.unused {i : Uuid} (h : LeavesOriginals w w') (hi : w.Unused i) :
    w'.Unused i := by
  intro place d' hd' t heq
  obtain ⟨place', d, hd, hs⟩ := h.rows place d' hd'
  exact hi place' d hd t (hs.storageKey ▸ heq)

private theorem LeavesOriginals.fits {owner : Uuid → Nat} {req : ApiRequest} {pid : Nat} {φ : StoringPhase}
    (h : LeavesOriginals w w') (hf : StoringFits cfg owner req pid φ w) :
    StoringFits cfg owner req pid φ w' := by
  cases req with
  | chat c agent => trivial
  | upload c =>
    cases φ with
    | next => trivial
    | ended => trivial
    | drawn i => exact ⟨Nat.lt_of_lt_of_le hf.1 h.uuid, hf.2.1, h.unused hf.2.2⟩
    | stored i data =>
      obtain ⟨⟨hi, howner, hunused⟩, hobject, haccepted⟩ := hf
      exact ⟨⟨Nat.lt_of_lt_of_le hi h.uuid, howner, h.unused hunused⟩, (h.objects _ i).trans hobject, haccepted⟩

end Frame

/-! ### The calls of a request -/

section Request

variable {cfg : ApiSettings} {rid : Nat} {agent : AgentReplies} {w : ApiWorld} {o : ApiOp}

private theorem apiHandler_objects (ho : ∀ key data contentType, o ≠ .putObject key data contentType) :
    (apiHandler rid agent o w).2.objects = w.objects := by
  cases o with
  | putObject key data contentType => exact absurd rfl (ho key data contentType)
  | createDocument ref n =>
    simp only [apiHandler, apiReply]
    split <;> rfl
  | commit ref =>
    simp only [apiHandler, apiReply]
    split <;> rfl
  | enqueueJob function arg =>
    simp only [apiHandler, apiReply]
    split <;> rfl
  | _ => rfl

/-- A call that stores nothing. -/
private theorem leavesOriginals_call (ho : StoresNothing o) :
    LeavesOriginals w (apiHandler rid agent o w).2 := by
  have hobjects : (apiHandler rid agent o w).2.objects = w.objects :=
    apiHandler_objects fun key data contentType heq => by
      subst heq
      exact ho
  have hold : ∀ place, ∀ d ∈ w.rowsAt place, ∃ place', ∃ d' ∈ w.rowsAt place', d'.SameAs d :=
    fun place d hd => ⟨place, d, hd, .refl d⟩
  cases apiHandler_rows rid agent o w with
  | same rows uuid => exact ⟨uuid, by rw [rows]; exact hold, fun t i => by rw [hobjects]⟩
  | insert ref n d new hid rows uuid => exact absurd ho id
  | commit ref rows uuid =>
    refine ⟨Nat.le_of_eq uuid.symm, fun place d hd => ?_, fun t i => by rw [hobjects]⟩
    rw [rows, Function.update_apply] at hd
    split at hd
    · cases hd
    · rw [Function.update_apply] at hd
      split at hd
      · rcases List.mem_append.mp hd with hd | hd
        · exact hold none d hd
        · exact hold _ d hd
      · exact hold place d hd
  | drop ref rows uuid =>
    refine ⟨Nat.le_of_eq uuid.symm, fun place d hd => ?_, fun t i => by rw [hobjects]⟩
    rw [rows, Function.update_apply] at hd
    split at hd
    · cases hd
    · exact hold place d hd

/-- Two ids that belong to two requests. -/
private theorem StoringFits.ne {owner : Uuid → Nat} {i i' : Uuid} {q : Nat} (hi : owner i = rid)
    (hi' : owner i' = q) (hne : q ≠ rid) : i' ≠ i := by
  rintro rfl
  exact hne (hi'.symm.trans hi)

/-- What a call leaves: every row has its original, and the requests know what they knew. -/
structure StepStores (cfg : ApiSettings) (owner : Uuid → Nat) (rid : Nat) (w w' : ApiWorld) : Prop where
  rows : ∀ place, ∀ d ∈ w'.rowsAt place, Original cfg w' d
  objects : ∀ place, ∀ d ∈ w.rowsAt place, w'.objects d.storageKey = w.objects d.storageKey
  others : ∀ q req φ, q ≠ rid → StoringFits cfg owner req q φ w → StoringFits cfg owner req q φ w'

variable {owner : Uuid → Nat} {req : ApiRequest} {φ : StoringPhase}

private theorem LeavesOriginals.stored {w' : ApiWorld} (h : LeavesOriginals w w')
    (hrows : ∀ place, ∀ d ∈ w.rowsAt place, Original cfg w d) : StepStores cfg owner rid w w' := by
  refine ⟨fun place d' hd' => ?_, fun place d hd => ?_, fun q req ψ _ hψ => h.fits hψ⟩
  · obtain ⟨place', d, hd, hs⟩ := h.rows place d' hd'
    exact h.original (hrows place' d hd) hs
  · obtain ⟨t, i, hkey, -⟩ := (hrows place d hd).key
    rw [hkey]
    exact h.objects t i

/-- An upload stores the object of an id that it has drawn. -/
private theorem stored_put {c : UploadCall} {i : Uuid} {data : List UInt8} {contentType : String}
    (hrows : ∀ place, ∀ d ∈ w.rowsAt place, Original cfg w d)
    (hf : StoringFits cfg owner (.upload c) rid (.drawn i) w) (haccepts : cfg.upload.Accepts data) :
    StepStores cfg owner rid w (apiHandler rid agent (.putObject (rawKey c.tenantId i) data contentType) w).2 ∧
      StoringFits cfg owner (.upload c) rid (.stored i data)
        (apiHandler rid agent (.putObject (rawKey c.tenantId i) data contentType) w).2 := by
  obtain ⟨hi, howner, hunused⟩ := hf
  have hother : ∀ key, key ≠ rawKey c.tenantId i →
      (apiHandler rid agent (.putObject (rawKey c.tenantId i) data contentType) w).2.objects key =
        w.objects key := fun key hkey => Function.update_of_ne hkey _ _
  refine ⟨⟨fun place d hd => ?_, fun place d hd => hother _ (hunused place d hd _), ?_⟩,
    ⟨hi, howner, hunused⟩, Function.update_self .., haccepts⟩
  · exact (hrows place d hd).mono (.refl d) (Nat.le_refl _) (hother _ (hunused place d hd _))
  intro q req ψ hq hψ
  cases req with
  | chat c' agent' => trivial
  | upload c' =>
    cases ψ with
    | next => trivial
    | ended => trivial
    | drawn i' => exact hψ
    | stored i' data' =>
      obtain ⟨⟨hi', howner', hunused'⟩, hobject, haccepted⟩ := hψ
      have hkey : rawKey c'.tenantId i' ≠ rawKey c.tenantId i :=
        fun heq => StoringFits.ne howner howner' hq (rawKey_inj heq)
      exact ⟨⟨hi', howner', hunused'⟩, (hother _ hkey).trans hobject, haccepted⟩

/-- An upload inserts the row of an object that it has stored. -/
private theorem stored_create {c : UploadCall} {i : Uuid} {data : List UInt8} {ref : SessionRef}
    {n : NewDocument} (hrows : ∀ place, ∀ d ∈ w.rowsAt place, Original cfg w d)
    (hf : StoringFits cfg owner (.upload c) rid (.stored i data) w)
    (hn : n.storageKey = rawKey c.tenantId i ∧ n.sizeBytes = data.length ∧ n.checksumSha256 = cfg.sha256 data) :
    StepStores cfg owner rid w (apiHandler rid agent (.createDocument ref n) w).2 := by
  have hobjects : (apiHandler rid agent (.createDocument ref n) w).2.objects = w.objects :=
    apiHandler_objects nofun
  rcases createDocument_rows rid agent ref n w with ⟨-, hsame, huuid⟩ | ⟨d, -, hnew, -, hrow, huuid⟩
  · refine LeavesOriginals.stored ⟨Nat.le_of_eq huuid.symm, ?_, fun t i => by rw [hobjects]⟩ hrows
    intro place d hd
    rw [hsame] at hd
    exact ⟨place, d, hd, .refl d⟩
  · obtain ⟨⟨hi, howner, hunused⟩, hobject, haccepted⟩ := hf
    have hle : w.nextUuid ≤ (apiHandler rid agent (.createDocument ref n) w).2.nextUuid := by
      rw [huuid]
      exact Nat.le_succ _
    have hkey : d.storageKey = rawKey c.tenantId i := (congrArg NewDocument.storageKey hnew).trans hn.1
    have hcases : ∀ place, ∀ d' ∈ (apiHandler rid agent (.createDocument ref n) w).2.rowsAt place,
        d' ∈ w.rowsAt place ∨ d' = d := by
      intro place d' hd'
      rw [hrow, Function.update_apply] at hd'
      split at hd'
      · rename_i heq
        subst heq
        exact (List.mem_append.mp hd').imp_right List.mem_singleton.mp
      · exact Or.inl hd'
    refine ⟨fun place d' hd' => ?_, fun place d' _ => by rw [hobjects], fun q req ψ hq hψ => ?_⟩
    · rcases hcases place d' hd' with hd' | rfl
      · exact (hrows place d' hd').mono (.refl d') hle (by rw [hobjects])
      · refine ⟨⟨_, i, hkey, Nat.lt_of_lt_of_le hi hle⟩, data, ?_, haccepted, ?_, ?_⟩
        · rw [hkey, hobjects]
          exact hobject
        · exact (congrArg NewDocument.sizeBytes hnew).trans hn.2.1
        · exact (congrArg NewDocument.checksumSha256 hnew).trans hn.2.2
    · have hunused' : ∀ i', owner i' = q → w.Unused i' →
          (apiHandler rid agent (.createDocument ref n) w).2.Unused i' := by
        intro i' howner' h place d' hd' t heq
        rcases hcases place d' hd' with hd' | rfl
        · exact h place d' hd' t heq
        · exact StoringFits.ne howner howner' hq (rawKey_inj (heq.symm.trans hkey))
      cases req with
      | chat c' agent' => trivial
      | upload c' =>
        cases ψ with
        | next => trivial
        | ended => trivial
        | drawn i' => exact ⟨Nat.lt_of_lt_of_le hψ.1 hle, hψ.2.1, hunused' i' hψ.2.1 hψ.2.2⟩
        | stored i' data' =>
          obtain ⟨⟨hi', howner', h⟩, hobject', haccepted'⟩ := hψ
          exact ⟨⟨Nat.lt_of_lt_of_le hi' hle, howner', hunused' i' howner' h⟩, by rw [hobjects]; exact hobject',
            haccepted'⟩

/-- A call of a request. -/
private theorem stored_call (howner : owner w.nextUuid = rid)
    (hrows : ∀ place, ∀ d ∈ w.rowsAt place, Original cfg w d) (ha : (requestStores cfg req).allows φ o)
    (hf : StoringFits cfg owner req rid φ w) :
    StepStores cfg owner rid w (apiHandler rid agent o w).2 ∧ ∀ a, (apiHandler rid agent o w).1 = .ok a →
      StoringFits cfg owner req rid ((requestStores cfg req).next φ o a) (apiHandler rid agent o w).2 := by
  -- a call that stores nothing, in a phase that it does not end
  have hnothing : StoresNothing o → (∀ a, (requestStores cfg req).next φ o a = φ) →
      StepStores cfg owner rid w (apiHandler rid agent o w).2 ∧ ∀ a, (apiHandler rid agent o w).1 = .ok a →
        StoringFits cfg owner req rid ((requestStores cfg req).next φ o a) (apiHandler rid agent o w).2 :=
    fun ho hnext => ⟨(leavesOriginals_call ho).stored hrows, fun a _ =>
      (hnext a).symm ▸ (leavesOriginals_call ho).fits hf⟩
  cases req with
  | chat c agent' => exact hnothing ha fun _ => rfl
  | upload c =>
    cases φ with
    | ended => exact absurd ha id
    | next =>
      cases o with
      | uuid4 =>
        have hleaves : LeavesOriginals w (apiHandler rid agent .uuid4 w).2 := leavesOriginals_call trivial
        refine ⟨hleaves.stored hrows, fun a hrep => ?_⟩
        obtain rfl : w.nextUuid = a := Except.ok.inj hrep
        refine ⟨Nat.lt_succ_self _, howner, hleaves.unused fun place d hd t heq => ?_⟩
        obtain ⟨t', i, hkey, hi⟩ := (hrows place d hd).key
        exact Nat.ne_of_lt hi (rawKey_inj (hkey.symm.trans heq))
      | putObject key data contentType => exact absurd ha id
      | createDocument ref n => exact absurd ha id
      | _ => exact hnothing trivial fun _ => rfl
    | drawn i =>
      cases o with
      | putObject key data contentType =>
        obtain ⟨rfl, haccepts⟩ := ha
        exact ⟨(stored_put hrows hf haccepts).1, fun _ _ => (stored_put hrows hf haccepts).2⟩
      | createDocument ref n => exact absurd ha id
      | _ => exact hnothing trivial fun _ => rfl
    | stored i data =>
      cases o with
      | createDocument ref n => exact ⟨stored_create hrows hf ha, fun _ _ => trivial⟩
      | putObject key data' contentType => exact absurd ha id
      | _ => exact hnothing trivial fun _ => rfl

end Request

/-! ### Runs -/

section Runs

variable {cfg : ApiSettings} {worker : WorkerSettings} {lib : ChunkerLib}

/-- The invariant: every row has its original, and every request and every job keeps to what it may store. -/
structure KeepsOriginals (cfg : ApiSettings) (lib : ChunkerLib) (s : PlatformState) : Prop where
  sound : Sound s.world
  rows : ∀ place, ∀ d ∈ s.world.api.rowsAt place, Original cfg s.world.api d
  requests : ∃ owner, s.Obeys (requestStores cfg) (fun _ _ _ => True) fun req pid φ p =>
    StoringFits cfg owner req pid φ p.api
  jobs : ∀ h, (s.world.jobState h).Obeys (fun j => traces lib j.docId) (fun _ _ _ => True) fun _ _ _ _ => True

theorem keepsOriginals_blank : KeepsOriginals cfg lib (idle .blank) where
  sound := sound_blank
  rows place d hd := by
    rcases place with _ | ⟨rid, ref⟩ <;> cases hd
  requests := ⟨fun _ => 0, idle_obeys _ _ _ _⟩
  jobs h := by
    intro pid p hp
    cases hp

/-- Another id may be given an owner as long as it has not been drawn. -/
private theorem StoringFits.reown {owner : Uuid → Nat} {req : ApiRequest} {pid : Nat} {φ : StoringPhase}
    {w : ApiWorld} (h : StoringFits cfg owner req pid φ w) (rid : Nat) :
    StoringFits cfg (Function.update owner w.nextUuid rid) req pid φ w := by
  have hother : ∀ i, i < w.nextUuid → Function.update owner w.nextUuid rid i = owner i :=
    fun i hi => Function.update_of_ne (Nat.ne_of_lt hi) _ _
  cases req with
  | chat c agent => trivial
  | upload c =>
    cases φ with
    | next => trivial
    | ended => trivial
    | drawn i => exact ⟨h.1, (hother i h.1).trans h.2.1, h.2.2⟩
    | stored i data => exact ⟨⟨h.1.1, (hother i h.1.1).trans h.1.2.1, h.1.2.2⟩, h.2⟩

/-- What the first phase of a request knows. -/
private theorem storingFits_first (owner : Uuid → Nat) (req : ApiRequest) (pid : Nat) (w : ApiWorld) :
    StoringFits cfg owner req pid (firstPhase req) w := by
  cases req <;> trivial

private theorem leavesOriginals_open (pid : Nat) (w : ApiWorld) : LeavesOriginals w (w.openSessions pid) := by
  obtain ⟨hdocs, huuid, hrows⟩ := openSessions_rows pid w
  refine ⟨Nat.le_of_eq huuid.symm, fun place d hd => ⟨place, d, ?_, .refl d⟩, fun _ _ => rfl⟩
  rcases place with _ | ⟨rid, ref⟩
  · exact hd
  · rw [hrows] at hd
    split at hd
    · cases hd
    · exact hd

/-- A row that is found has the id that was looked for. -/
theorem traces_replies {pid : Nat} {env : JobReplies} {o : JobOp} {w : JobWorld} {d : Uuid} {φ : TracePhase}
    {a : o.Resp} (h : (jobHandler pid env o w).1 = .ok a) : (traces lib d).replies φ o a := by
  cases o with
  | getInternal d' =>
    intro doc hdoc
    have hfind : w.stores.documents.rows.find? (fun d => d.key = d') = a := Except.ok.inj h
    have hkey := List.find?_some (hfind.trans hdoc)
    exact of_decide_eq_true hkey
  | _ => trivial

/-- A call of a job stores nothing under the key of an id. -/
private theorem jobReply_rawKey {pid : Nat} {env : JobReplies} {o : JobOp} {w : JobWorld} {d : Uuid}
    {φ : TracePhase} (ha : (traces lib d).allows φ o) (t i : Uuid) :
    (jobReply pid env o w).2.stores.objects (rawKey t i) = w.stores.objects (rawKey t i) := by
  by_cases ho : ∃ key data contentType, o = .putObject key data contentType
  · obtain ⟨key, data, contentType, rfl⟩ := ho
    have hkey : ∃ storageKey, key = markdownKeyOf storageKey := by
      cases φ with
      | parsed doc data' result => exact ⟨doc.storageKey, ha.1⟩
      | _ => exact absurd ha id
    obtain ⟨storageKey, rfl⟩ := hkey
    exact Function.update_of_ne (markdownKeyOf_ne_rawKey storageKey t i).symm _ _
  · rw [jobReply_objects fun key data contentType heq => ho ⟨key, data, contentType, heq⟩]

/-- What the jobs store, whatever they know. -/
abbrev JobsTrace (lib : ChunkerLib) (s : JobState) : Prop :=
  s.Obeys (fun j => traces lib j.docId) (fun _ _ _ => True) fun _ _ _ _ => True

private theorem jobsTrace_step {s s' : JobState} {l : JobLabel} (hs : JobsTrace lib s)
    (h : (ingestionService lib).step s l = some s') : JobsTrace lib s' := by
  refine obeys_step (fun pid j w => ⟨.unread, processDocument_traces, trivial⟩) ?_
    (fun _ _ _ _ _ _ _ => trivial) hs h
  intro pid j o k out φ rep _ _ _ _ hrep
  refine ⟨?_, trivial⟩
  rintro a rfl
  exact traces_replies (Outcome.handler_ok hrep)

private theorem leavesOriginals_withJobs {p : Platform} {s : JobState}
    (hrows : List.Forall₂ Document.SameAs p.api.documents s.world.stores.documents.rows)
    (huuid : p.api.nextUuid ≤ s.world.stores.nextUuid)
    (hobjects : ∀ t i, s.world.stores.objects (rawKey t i) = p.api.objects (rawKey t i)) :
    LeavesOriginals p.api (p.withJobs s).api := by
  refine ⟨huuid, fun place d hd => ?_, hobjects⟩
  rcases place with _ | ⟨rid, ref⟩
  · obtain ⟨d', hd', hs⟩ := Related.exists_left hrows hd
    exact ⟨none, d', hd', hs⟩
  · exact ⟨some (rid, ref), d, hd, .refl d⟩

/-- A step of a job stores nothing under the key of an id. -/
private theorem leavesOriginals_job {p p' : Platform} {l : JobLabel}
    (hjobs : ∀ h, JobsTrace lib (p.jobState h)) (hstep : PlatformStep.step worker lib (.job l) p = some p') :
    LeavesOriginals p.api p'.api ∧ ∀ h, JobsTrace lib (p'.jobState h) := by
  simp only [PlatformStep.step] at hstep
  split at hstep
  · rename_i hkeyed
    split at hstep
    · obtain ⟨s', hs', rfl⟩ := Option.map_eq_some_iff.mp hstep
      refine ⟨?_, fun h => jobsTrace_step (hjobs hkeyed) hs'⟩
      rcases step_cases hs' with ⟨pid, j, rfl, -, rfl⟩ | ⟨pid, out, j, o, k, rfl, hproc, rfl⟩ | ⟨e, -⟩
      · exact leavesOriginals_withJobs (sameAs_rows _) (Nat.le_refl _) fun _ _ => rfl
      · obtain ⟨φ, ⟨ha, -⟩, -⟩ := hjobs hkeyed pid _ hproc
        rcases Outcome.world_eq (jobHandler pid j.replies) o (p.jobState hkeyed).world out with heq | heq
        · refine leavesOriginals_withJobs ?_ ?_ ?_ <;> rw [resume_world] <;>
            simp only [ingestionService, heq]
          · exact sameAs_rows _
          · exact Nat.le_refl _
          · exact fun _ _ => rfl
        · have hkept := jobReply_rows pid j.replies o (p.jobState hkeyed).world
          refine leavesOriginals_withJobs ?_ ?_ ?_ <;> rw [resume_world] <;>
            simp only [ingestionService, heq]
          · exact hkept.rows
          · exact hkept.uuid
          · exact jobReply_rawKey ha
      · cases e
    · cases hstep
  · cases hstep

/-- A step that leaves the originals alone. -/
private theorem KeepsOriginals.leaves {s s' : PlatformState} {l : PlatformLabel}
    (hi : KeepsOriginals cfg lib s) (h : (platformService cfg worker lib).step s l = some s')
    (hl : ∀ pid out, l ≠ .call pid out) (hleaves : LeavesOriginals s.world.api s'.world.api)
    (hjobs : ∀ h, JobsTrace lib (s'.world.jobState h)) :
    KeepsOriginals cfg lib s' ∧
      ∀ d ∈ s.world.api.documents, s'.world.api.objects d.storageKey = s.world.api.objects d.storageKey := by
  obtain ⟨owner, hrequests⟩ := hi.requests
  have hstores : StepStores cfg owner 0 s.world.api s'.world.api := hleaves.stored hi.rows
  refine ⟨⟨(platform_step hi.sound h).1, hstores.rows, ⟨owner, ?_⟩, hjobs⟩, hstores.objects none⟩
  refine obeys_step (fun pid req w => ⟨firstPhase req, request_stores cfg worker req,
    storingFits_first owner req pid _⟩) ?_ (fun q p φ _ _ _ hf => hleaves.fits hf) hrequests h
  exact fun pid req o k out φ rep heq => absurd heq (hl pid out)

/-- The replies that a request reckons with. -/
private theorem request_replies (req : ApiRequest) {pid : Nat} {agent : AgentReplies} {o : ApiOp}
    {w : ApiWorld} {φ : StoringPhase} {a : o.Resp} (h : (apiHandler pid agent o w).1 = .ok a) :
    (requestStores cfg req).replies φ o a := by
  cases req with
  | upload c => trivial
  | chat c agent' =>
    cases o with
    | addMessage ref n =>
      obtain rfl := Except.ok.inj h
      rfl
    | _ => trivial

/-- What a call of a request does to the platform. -/
theorem handle_api (pid : Nat) (req : ApiRequest) : ∃ agent, ∀ (o : ApiOp) (p : Platform),
    (platformService cfg worker lib).handle pid req o p =
      ((apiHandler pid agent o p.api).1, { p with api := (apiHandler pid agent o p.api).2 }) := by
  obtain ⟨agent, hh⟩ := handle_eq cfg worker pid req
  refine ⟨agent, fun o p => ?_⟩
  show (((apiService cfg worker).handle pid req o p.api).1,
    { p with api := ((apiService cfg worker).handle pid req o p.api).2 }) = _
  rw [hh]

/-- A call of a request. -/
private theorem KeepsOriginals.call {s : PlatformState} {pid : Nat} {out : Outcome ApiErr} {req : ApiRequest}
    {o : ApiOp} {k : Except ApiErr o.Resp → Api ApiReply} (hi : KeepsOriginals cfg lib s)
    (hproc : s.procs pid = some ⟨req, .call o k⟩) {s' : PlatformState}
    (h : (platformService cfg worker lib).step s (.call pid out) = some s')
    (hworld : s'.world = out.world ((platformService cfg worker lib).handle pid req) o s.world) :
    KeepsOriginals cfg lib s' ∧
      ∀ d ∈ s.world.api.documents, s'.world.api.objects d.storageKey = s.world.api.objects d.storageKey := by
  obtain ⟨owner, hrequests⟩ := hi.requests
  obtain ⟨agent, hhandle⟩ := @handle_api cfg worker lib pid req
  -- the id that is drawn next, if any, is the request's own
  let owner' := Function.update owner s.world.api.nextUuid pid
  have hobeys : s.Obeys (requestStores cfg) (fun _ _ _ => True) fun req pid φ p =>
      StoringFits cfg owner' req pid φ p.api := by
    intro q p hp
    obtain ⟨φ, hφ, hf⟩ := hrequests q p hp
    exact ⟨φ, hφ, hf.reown pid⟩
  have hown : owner' s.world.api.nextUuid = pid := Function.update_self ..
  obtain ⟨φ, ⟨ha, -⟩, hf⟩ := hobeys pid _ hproc
  have hstores := (@stored_call cfg pid agent s.world.api o owner' req φ hown hi.rows ha hf).1
  have hworld' : s'.world = s.world ∨
      s'.world = { s.world with api := (apiHandler pid agent o s.world.api).2 } := by
    rw [hworld]
    rcases Outcome.world_eq ((platformService cfg worker lib).handle pid req) o s.world out with heq | heq
    · exact Or.inl heq
    · rw [heq, hhandle]
      exact Or.inr rfl
  have hjobs : ∀ h, JobsTrace lib (s'.world.jobState h) := by
    rcases hworld' with heq | heq <;> rw [heq] <;> exact fun h => hi.jobs hi.sound.keyed
  have hstep : (∀ place, ∀ d ∈ s'.world.api.rowsAt place, Original cfg s'.world.api d) ∧
      (∀ d ∈ s.world.api.documents, s'.world.api.objects d.storageKey = s.world.api.objects d.storageKey) ∧
        ∀ q req ψ, q ≠ pid → StoringFits cfg owner' req q ψ s.world.api →
          StoringFits cfg owner' req q ψ s'.world.api := by
    rcases hworld' with heq | heq
    · rw [heq]
      exact ⟨hi.rows, fun _ _ => rfl, fun _ _ _ _ hψ => hψ⟩
    · rw [heq]
      exact ⟨hstores.rows, hstores.objects none, hstores.others⟩
  refine ⟨⟨(platform_step hi.sound h).1, hstep.1, ⟨owner', ?_⟩, hjobs⟩, hstep.2.1⟩
  refine obeys_step (fun pid req w => ⟨firstPhase req, request_stores cfg worker req,
    storingFits_first owner' req pid _⟩) ?_ ?_ hobeys h
  · intro pid' req' o' k' out' φ' rep hl hproc' ha' hf' hrep
    obtain ⟨rfl, rfl⟩ := Label.call.inj hl
    obtain ⟨agent', hhandle'⟩ := @handle_api cfg worker lib pid req'
    refine Protocol.after_fits_of (F := fun φ (p : Platform) => StoringFits cfg owner' req' pid φ p.api)
      (fun _ a hrep' => ?_) (fun e v _ => ?_) hrep
    · rw [hhandle'] at hrep' ⊢
      exact ⟨request_replies req' hrep', (stored_call hown hi.rows ha' hf').2 a hrep'⟩
    · cases req' <;> trivial
  · exact fun q p ψ hq _ _ hψ => hstep.2.2 q p.req ψ (fun heq => hq (congrArg some heq.symm)) hψ

/-- Every step keeps the originals of the rows. -/
theorem KeepsOriginals.step {s s' : PlatformState} {l : PlatformLabel} (hi : KeepsOriginals cfg lib s)
    (h : (platformService cfg worker lib).step s l = some s') :
    KeepsOriginals cfg lib s' ∧
      ∀ d ∈ s.world.api.documents, s'.world.api.objects d.storageKey = s.world.api.objects d.storageKey := by
  rcases step_cases h with ⟨pid, r, rfl, -, rfl⟩ | ⟨pid, out, req, o, k, rfl, hproc, rfl⟩ |
    ⟨e, w, rfl, hw, rfl⟩
  · exact hi.leaves h nofun (leavesOriginals_open pid s.world.api) hi.jobs
  · exact hi.call hproc h (resume_world ..)
  · cases e with
    | job l =>
      obtain ⟨hleaves, hjobs⟩ := @leavesOriginals_job worker lib s.world w l hi.jobs hw
      exact hi.leaves h nofun hleaves hjobs
    | broker e =>
      simp only [platformService, PlatformStep.step, Option.map_eq_some_iff, WorkerStep.step] at hw
      obtain ⟨-, ⟨b, -, rfl⟩, rfl⟩ := hw
      have hsame : LeavesOriginals s.world.api { s.world.api with broker := b } :=
        ⟨Nat.le_refl _, fun place d hd => ⟨place, d, hd, .refl d⟩, fun _ _ => rfl⟩
      exact hi.leaves h (fun _ _ heq => by cases heq) hsame hi.jobs

/-- The object of every document holds the bytes that were uploaded, as many as its row says and with the
hash that it says, and nothing that comes later touches it or takes the row away. -/
theorem originals_kept (cfg : ApiSettings) (worker : WorkerSettings) (lib : ChunkerLib)
    {ls ls' : List PlatformLabel} {s s' : PlatformState}
    (hr : (platformService cfg worker lib).run (idle .blank) ls = some s)
    (hr' : (platformService cfg worker lib).run s ls' = some s') {d : Document}
    (hd : d ∈ s.world.api.documents) :
    ∃ data, d.HasOriginal cfg s.world.api.objects data ∧ d.HasOriginal cfg s'.world.api.objects data ∧
      ∃ d' ∈ s'.world.api.documents, d.SameAs d' := by
  have hi : KeepsOriginals cfg lib s :=
    run_keeps (KeepsOriginals cfg lib) (fun _ _ _ hi h => (hi.step h).1) keepsOriginals_blank hr
  obtain ⟨data, hdata⟩ := (hi.rows none d hd).original
  obtain ⟨-, hobject, hrow⟩ : KeepsOriginals cfg lib s' ∧ s'.world.api.objects d.storageKey = some data ∧
      ∃ d' ∈ s'.world.api.documents, d.SameAs d' := by
    refine run_keeps (fun t => KeepsOriginals cfg lib t ∧ t.world.api.objects d.storageKey = some data ∧
      ∃ d' ∈ t.world.api.documents, d.SameAs d') ?_ ⟨hi, hdata.object, d, hd, .refl d⟩ hr'
    rintro t l t' ⟨ht, hobject, d', hd', hs⟩ hstep
    obtain ⟨ht', hsame⟩ := ht.step hstep
    obtain ⟨d'', hd'', hs'⟩ := (platform_step ht.sound hstep).2.grows d' hd'
    refine ⟨ht', ?_, d'', hd'', hs.trans hs'⟩
    rw [← hs.storageKey, hsame d' hd', hs.storageKey, hobject]
  exact ⟨data, hdata, ⟨hobject, hdata.accepted, hdata.size, hdata.hash⟩, hrow⟩

/-- A file is uploaded, and its document is indexed. -/
theorem originals_kept_firstUpload :
    ∃ s s', (platformService uploadCfg pollingWorker plainChunker).run (idle .blank) firstUpload = some s ∧
      (platformService uploadCfg pollingWorker plainChunker).run s indexFirst = some s' ∧
      ∃ d ∈ s.world.api.documents, ∃ data, d.HasOriginal uploadCfg s'.world.api.objects data := by
  have hboth : (((platformService uploadCfg pollingWorker plainChunker).run (idle .blank) firstUpload).bind
      fun s => ((platformService uploadCfg pollingWorker plainChunker).run s indexFirst).map fun _ =>
        s.world.api.documents.length) = some 1 := by decide +kernel
  obtain ⟨s, hs, hrest⟩ := Option.bind_eq_some_iff.mp hboth
  obtain ⟨s', hs', hlength⟩ := Option.map_eq_some_iff.mp hrest
  obtain ⟨d, hd⟩ := List.length_eq_one_iff.mp hlength
  have hmem : d ∈ s.world.api.documents := hd ▸ List.mem_singleton_self d
  obtain ⟨data, -, hdata, -⟩ := originals_kept uploadCfg pollingWorker plainChunker hs hs' hmem
  exact ⟨s, s', hs, hs', d, hmem, data, hdata⟩

end Runs

end LegalRag
