import LegalRag.Worker.Originals

/-!
# Nothing is indexed that was not uploaded

Every point that the search can find, and every row of `document_chunks`, is a chunk of what the parser of
some execution has made of the original of its document (`index_traced`), however requests and executions
interleave, fail and die.

The invariant is on the stores (`Stores.Traced`), on the transactions of the executions, and on what each
execution has in hand (`TraceFits`).
-/

namespace LegalRag

open Calls Service

/-- The row is in the table, and its object holds the bytes that were uploaded. -/
def Stores.Reads (cfg : ApiSettings) (s : Stores) (doc : Document) (data : List UInt8) : Prop :=
  ∃ r ∈ s.documents.rows, doc.SameAs r ∧ r.HasOriginal cfg s.objects data

/-- `R` holds of the chunks of what an execution of `J` makes of the original of a document. -/
def Stores.Traced (cfg : ApiSettings) (lib : ChunkerLib) (J : IngestionJob → Prop) (s : Stores)
    (R : IndexTarget → List Chunk → Prop) : Prop :=
  ∃ doc data j result, s.Reads cfg doc data ∧ J j ∧ j.docId = doc.id ∧
    j.replies.parse data doc.mimeType doc.title = .ok result ∧ R doc.target (chunksOf lib result)

/-- The rows of documents stay, and their objects too. -/
structure Stores.Keeps (s s' : Stores) : Prop where
  rows : Grows s.documents.rows s'.documents.rows
  objects : ∀ d ∈ s.documents.rows, s'.objects d.storageKey = s.objects d.storageKey

/-- What an execution has in hand comes from the original of its document. -/
def TraceFits (cfg : ApiSettings) (J : IngestionJob → Prop) (j : IngestionJob) (_ : Nat) :
    TracePhase → JobWorld → Prop
  | .unread, _ => J j
  | .read doc, w => J j ∧ doc.id = j.docId ∧ ∃ r ∈ w.stores.documents.rows, doc.SameAs r
  | .fetched doc data, w => J j ∧ doc.id = j.docId ∧ w.stores.Reads cfg doc data
  | .parsed doc data result, w => J j ∧ doc.id = j.docId ∧ w.stores.Reads cfg doc data ∧
    j.replies.parse data doc.mimeType doc.title = .ok result

/-- What is indexed, or about to be, is traced to an original. -/
structure IndexTraced (cfg : ApiSettings) (lib : ChunkerLib) (J : IngestionJob → Prop)
    (w : JobWorld) : Prop where
  points : ∀ p ∈ w.stores.points, w.stores.Traced cfg lib J fun t cs => p.FromChunks t cs
  chunks : ∀ r ∈ w.stores.chunks.rows, w.stores.Traced cfg lib J fun t cs => r.FromChunks t cs
  pending : ∀ pid rows, .insertChunks rows ∈ (w.executions pid).pending →
    ∀ r ∈ rows, w.stores.Traced cfg lib J fun t cs => r.FromChunks t cs

/-- The invariant of the executions. -/
structure JobsTraced (cfg : ApiSettings) (lib : ChunkerLib) (J : IngestionJob → Prop)
    (s : JobState) : Prop where
  procs : s.Obeys (fun j => traces lib j.docId) (fun _ _ _ => True) (TraceFits cfg J)
  index : IndexTraced cfg lib J s.world

section Frame

variable {cfg : ApiSettings} {lib : ChunkerLib} {J : IngestionJob → Prop} {s s' : Stores}

private theorem Stores.Keeps.reads (h : s.Keeps s') {doc : Document} {data : List UInt8}
    (hr : s.Reads cfg doc data) : s'.Reads cfg doc data := by
  obtain ⟨r, hr, hs, hdata⟩ := hr
  obtain ⟨r', hr', hs'⟩ := h.rows r hr
  have hkept : r.HasOriginal cfg s'.objects data :=
    ⟨(h.objects r hr).trans hdata.object, hdata.accepted, hdata.size, hdata.hash⟩
  exact ⟨r', hr', hs.trans hs', hkept.sameAs hs'⟩

theorem Stores.Keeps.traced (h : s.Keeps s') {R : IndexTarget → List Chunk → Prop}
    (ht : s.Traced cfg lib J R) : s'.Traced cfg lib J R := by
  obtain ⟨doc, data, j, result, hreads, hrest⟩ := ht
  exact ⟨doc, data, j, result, h.reads hreads, hrest⟩

theorem Stores.Keeps.fits {w w' : JobWorld} (h : w.stores.Keeps w'.stores) {j : IngestionJob} {pid : Nat}
    {φ : TracePhase} (hf : TraceFits cfg J j pid φ w) : TraceFits cfg J j pid φ w' := by
  cases φ with
  | unread => exact hf
  | read doc =>
    obtain ⟨hj, hid, r, hr, hs⟩ := hf
    obtain ⟨r', hr', hs'⟩ := h.rows r hr
    exact ⟨hj, hid, r', hr', hs.trans hs'⟩
  | fetched doc data => exact ⟨hf.1, hf.2.1, h.reads hf.2.2⟩
  | parsed doc data result => exact ⟨hf.1, hf.2.1, h.reads hf.2.2.1, hf.2.2.2⟩

/-- A step of the API or of the broker. -/
private theorem JobsTraced.others {s s' : JobState} (hs : JobsTraced cfg lib J s)
    (hprocs : s'.procs = s.procs) (hexecutions : s'.world.executions = s.world.executions)
    (hpoints : s'.world.stores.points = s.world.stores.points)
    (hchunks : s'.world.stores.chunks = s.world.stores.chunks)
    (hkeeps : s.world.stores.Keeps s'.world.stores) : JobsTraced cfg lib J s' := by
  refine ⟨fun pid p hp => ?_, fun p hp => ?_, fun r hr => ?_, fun pid rows hrows r hr => ?_⟩
  · rw [hprocs] at hp
    obtain ⟨φ, hφ, hf⟩ := hs.procs pid p hp
    exact ⟨φ, hφ, hkeeps.fits hf⟩
  · exact hkeeps.traced (hs.index.points p (hpoints ▸ hp))
  · exact hkeeps.traced (hs.index.chunks r (hchunks ▸ hr))
  · rw [hexecutions] at hrows
    exact hkeeps.traced (hs.index.pending pid rows hrows r hr)

end Frame

/-! ### The steps of an execution -/

section Steps

variable {cfg : ApiSettings} {lib : ChunkerLib} {J : IngestionJob → Prop} {pid : Nat} {j : IngestionJob}
  {o : JobOp} {w : JobWorld} {φ : TracePhase}

/-- What an execution stores is traced to an original. -/
theorem traced_of_fits {doc : Document} {data : List UInt8} {result : ParseResult}
    (hf : TraceFits cfg J j pid (.parsed doc data result) w) {R : IndexTarget → List Chunk → Prop}
    (hR : R doc.target (chunksOf lib result)) : w.stores.Traced cfg lib J R :=
  ⟨doc, data, j, result, hf.2.2.1, hf.1, hf.2.1.symm, hf.2.2.2, hR⟩

/-- What an execution has in hand after a call. -/
theorem traceFits_next
    (horiginals : ∀ r ∈ w.stores.documents.rows, ∃ data, r.HasOriginal cfg w.stores.objects data)
    (ha : (traces lib j.docId).allows φ o) (hf : TraceFits cfg J j pid φ w) {a : o.Resp}
    (hr : (jobHandler pid j.replies o w).1 = .ok a) :
    TraceFits cfg J j pid ((traces lib j.docId).next φ o a) w := by
  cases φ with
  | unread =>
    cases o with
    | getInternal d' =>
      obtain rfl : d' = j.docId := ha
      cases a with
      | none => exact hf
      | some doc =>
        have hfind : w.stores.documents.rows.find? (fun d => d.key = j.docId) = some doc := Except.ok.inj hr
        have hkey := List.find?_some hfind
        exact ⟨hf, of_decide_eq_true hkey, doc, List.mem_of_find?_eq_some hfind, .refl doc⟩
    | _ => exact hf
  | read doc =>
    cases o with
    | getObject key =>
      obtain rfl : key = doc.storageKey := ha
      obtain ⟨hj, hid, r, hr', hs⟩ := hf
      obtain ⟨data, hdata⟩ := horiginals r hr'
      have hfetch : w.stores.objects doc.storageKey = some a := by
        have hreply : w.stores.fetch doc.storageKey = .ok a := hr
        unfold Stores.fetch at hreply
        split at hreply
        · rename_i data' hobject
          rw [hobject, Except.ok.inj hreply]
        · cases hreply
      obtain rfl : data = a := by
        rw [← hs.storageKey, hdata.object] at hfetch
        exact Option.some.inj hfetch
      exact ⟨hj, hid, r, hr', hs, hdata⟩
    | _ => exact hf
  | fetched doc data =>
    cases o with
    | parseFile data' mimeType filename =>
      obtain ⟨rfl, rfl, rfl⟩ := ha
      exact ⟨hf.1, hf.2.1, hf.2.2, hr⟩
    | _ => exact hf
  | parsed doc data result => cases o <;> exact hf

/-- What is indexed after a call. -/
private theorem indexTraced_call (hi : IndexTraced cfg lib J w) (ha : (traces lib j.docId).allows φ o)
    (hf : TraceFits cfg J j pid φ w) (hkeeps : w.stores.Keeps (jobReply pid j.replies o w).2.stores) :
    IndexTraced cfg lib J (jobReply pid j.replies o w).2 := by
  refine ⟨fun p hp => hkeeps.traced ?_, fun r hr => hkeeps.traced ?_, fun q rows hrows r hr =>
    hkeeps.traced ?_⟩
  · rcases (jobReply_rows pid j.replies o w).points p hp with hold | ⟨new, rfl, hnew⟩
    · exact hi.points p hold
    · cases φ with
      | parsed doc data result => exact traced_of_fits hf (ha p hnew)
      | _ => exact absurd ha id
  · rcases jobReply_chunks r hr with hr | ⟨rows, hrows, hr⟩
    · exact hi.chunks r hr
    · exact hi.pending pid rows hrows r hr
  · rcases jobReply_pending hrows with hrows | rfl
    · exact hi.pending q rows hrows r hr
    · cases φ with
      | parsed doc data result => exact traced_of_fits hf (ha r hr)
      | _ => exact absurd ha id

/-- An execution begins with an empty transaction. -/
private theorem indexTraced_begin (hi : IndexTraced cfg lib J w) (pid : Nat) :
    IndexTraced cfg lib J (w.begin pid) := by
  refine ⟨hi.points, hi.chunks, fun q rows hrows => ?_⟩
  by_cases hq : q = pid
  · subst hq
    simp [JobWorld.begin, Execution.start] at hrows
  · simp only [JobWorld.begin, Function.update_of_ne hq] at hrows
    exact hi.pending q rows hrows

/-- A step of an execution; those that begin are of `J`. -/
private theorem JobsTraced.step {s s' : JobState} {l : JobLabel} (hs : JobsTraced cfg lib J s)
    (horiginals : ∀ r ∈ s.world.stores.documents.rows, ∃ data, r.HasOriginal cfg s.world.stores.objects data)
    (hkeeps : s.world.stores.Keeps s'.world.stores) (hstart : ∀ pid j, l = .start pid j → J j)
    (h : (ingestionService lib).step s l = some s') : JobsTraced cfg lib J s' := by
  refine ⟨?_, ?_⟩
  · refine obeys_step_of ?_ ?_ (fun q p φ _ _ _ hf => hkeeps.fits hf) hs.procs h
    · exact fun pid j hl => ⟨.unread, processDocument_traces, hstart pid j hl⟩
    · intro pid j o k out φ rep hl hproc ha hf hrep
      have hworld : s'.world = out.world (jobHandler pid j.replies) o s.world := by
        rw [hl] at h
        simp only [Service.step, hproc, Option.some.injEq] at h
        rw [← h, resume_world]
        rfl
      refine ⟨?_, ?_⟩
      · rintro a rfl
        exact traces_replies (Outcome.handler_ok hrep)
      · show TraceFits cfg J j pid _ (out.world (jobHandler pid j.replies) o s.world)
        rw [← hworld]
        refine hkeeps.fits ?_
        cases rep with
        | error e => exact hf
        | ok a => exact traceFits_next horiginals ha hf (Outcome.handler_ok hrep)
  · rcases step_cases h with ⟨pid, j, rfl, -, rfl⟩ | ⟨pid, out, j, o, k, rfl, hproc, rfl⟩ | ⟨e, -⟩
    · exact indexTraced_begin hs.index pid
    · obtain ⟨φ, ⟨ha, -⟩, hf⟩ := hs.procs pid _ hproc
      rw [resume_world] at hkeeps ⊢
      rcases Outcome.world_eq (jobHandler pid j.replies) o s.world out with heq | heq
      · simp only [ingestionService, heq]
        exact hs.index
      · simp only [ingestionService, heq] at hkeeps ⊢
        exact indexTraced_call hs.index ha hf hkeeps
    · cases e

end Steps

/-! ### Runs of the platform -/

section Runs

variable {cfg : ApiSettings} {worker : WorkerSettings} {lib : ChunkerLib} {J : IngestionJob → Prop}

/-- The invariant of the platform. -/
structure PlatformTraced (cfg : ApiSettings) (lib : ChunkerLib) (J : IngestionJob → Prop)
    (s : PlatformState) : Prop where
  originals : KeepsOriginals cfg lib s
  jobs : ∀ h, JobsTraced cfg lib J (s.world.jobState h)

theorem platformTraced_blank : PlatformTraced cfg lib J (idle .blank) where
  originals := keepsOriginals_blank
  jobs h := by
    refine ⟨?_, ?_, ?_, ?_⟩
    · intro pid p hp
      cases hp
    · intro p hp
      cases hp
    · intro r hr
      cases hr
    · intro pid rows hrows
      cases hrows

/-- The executions that begin are of `J`. -/
def Begins (J : IngestionJob → Prop) : PlatformLabel → Prop
  | .env (.job (.start _ j)) => J j
  | _ => True

theorem PlatformTraced.step {s s' : PlatformState} {l : PlatformLabel} (hi : PlatformTraced cfg lib J s)
    (hl : Begins J l) (h : (platformService cfg worker lib).step s l = some s') :
    PlatformTraced cfg lib J s' := by
  obtain ⟨horiginals, hobjects⟩ := hi.originals.step h
  have hgrows := (platform_step hi.originals.sound h).2.grows
  have hkeyed := hi.originals.sound.keyed
  have hjobs := hi.jobs hkeyed
  refine ⟨horiginals, fun hkeyed' => ?_⟩
  have hkeeps : (s.world.jobState hkeyed).world.stores.Keeps (s'.world.jobState hkeyed').world.stores :=
    ⟨hgrows, hobjects⟩
  -- a step of the API or of the broker leaves the rest of the platform alone
  have hothers : (∃ w, s'.world = { s.world with api := w }) →
      JobsTraced cfg lib J (s'.world.jobState hkeyed') := by
    rintro ⟨w, hw⟩
    refine hjobs.others ?_ ?_ ?_ ?_ hkeeps <;> simp only [Platform.jobState, hw]
  rcases step_cases h with ⟨pid, r, rfl, -, rfl⟩ | ⟨pid, out, req, o, k, rfl, -, rfl⟩ | ⟨e, w, rfl, hw, rfl⟩
  · exact hothers ⟨_, rfl⟩
  · refine hothers ?_
    rw [resume_world]
    obtain ⟨agent, hhandle⟩ := @handle_api cfg worker lib pid req
    rcases Outcome.world_eq ((platformService cfg worker lib).handle pid req) o s.world out with heq | heq
    · exact ⟨s.world.api, heq⟩
    · rw [heq, hhandle]
      exact ⟨_, rfl⟩
  · cases e with
    | broker e =>
      simp only [platformService, PlatformStep.step, Option.map_eq_some_iff] at hw
      obtain ⟨b, -, rfl⟩ := hw
      exact hothers ⟨b, rfl⟩
    | job l =>
      simp only [platformService, PlatformStep.step, dif_pos hkeyed, Option.ite_none_right_eq_some,
        Option.map_eq_some_iff] at hw
      obtain ⟨-, t, ht, rfl⟩ := hw
      refine hjobs.step (fun r hr => (hi.originals.rows none r hr).original) hkeeps ?_ ht
      rintro pid j rfl
      exact hl

/-- The executions that begin in a run. -/
def BegunIn (ls : List PlatformLabel) (j : IngestionJob) : Prop :=
  ∃ pid, Label.env (.job (.start pid j)) ∈ ls

theorem begins_of_mem {ls : List PlatformLabel} {l : PlatformLabel} (h : l ∈ ls) : Begins (BegunIn ls) l := by
  unfold Begins
  split
  · exact ⟨_, h⟩
  · trivial

/-- `R` holds of the chunks of what an execution of the run has made of the original of a document. -/
def Platform.Traced (cfg : ApiSettings) (lib : ChunkerLib) (ls : List PlatformLabel) (p : Platform)
    (R : IndexTarget → List Chunk → Prop) : Prop :=
  ∃ d ∈ p.api.documents, ∃ data j result, d.HasOriginal cfg p.api.objects data ∧ BegunIn ls j ∧ j.docId = d.id ∧
    j.replies.parse data d.mimeType d.title = .ok result ∧ R d.target (chunksOf lib result)

theorem Platform.traced_of_stores {p : Platform} {h : p.Keyed} {ls : List PlatformLabel}
    {R : IndexTarget → List Chunk → Prop}
    (ht : (p.jobState h).world.stores.Traced cfg lib (BegunIn ls) R) : p.Traced cfg lib ls R := by
  obtain ⟨doc, data, j, result, ⟨d, hd, hs, hdata⟩, hj, hid, hparse, hR⟩ := ht
  have hmime : d.mimeType = doc.mimeType := congrArg NewDocument.mimeType hs.2
  have htitle : d.title = doc.title := congrArg NewDocument.title hs.2
  refine ⟨d, hd, data, j, result, hdata, hj, hid.trans hs.1.symm, ?_, ?_⟩
  · rw [hmime, htitle, hparse]
  · rw [hs.target]
    exact hR

/-- A point or a row of a chunk comes from the original of a document: it is one of the chunks of what an
execution for this document has parsed of the bytes that were uploaded, and refers to the document and its
owner. -/
theorem index_traced (cfg : ApiSettings) (worker : WorkerSettings) (lib : ChunkerLib)
    {ls : List PlatformLabel} {s : PlatformState}
    (hr : (platformService cfg worker lib).run (idle .blank) ls = some s) :
    (∀ p ∈ s.world.points, s.world.Traced cfg lib ls fun t cs => p.FromChunks t cs) ∧
      ∀ r ∈ s.world.chunks.rows, s.world.Traced cfg lib ls fun t cs => r.FromChunks t cs := by
  have hi : PlatformTraced cfg lib (BegunIn ls) s :=
    run_induct (C := fun _ l => l ∈ ls) (fun _ _ _ hi hl hstep => hi.step (begins_of_mem hl) hstep)
      platformTraced_blank (meets_labels fun _ hl => hl) hr
  have hindex := (hi.jobs hi.originals.sound.keyed).index
  exact ⟨fun p hp => Platform.traced_of_stores (hindex.points p hp),
    fun r hrow => Platform.traced_of_stores (hindex.chunks r hrow)⟩

/-- The point of the first user's document is traced. -/
theorem index_traced_firstUpload :
    ∃ s, (platformService uploadCfg pollingWorker plainChunker).run (idle .blank)
      (firstUpload ++ indexFirst) = some s ∧
      ∃ p ∈ s.world.points, s.world.Traced uploadCfg plainChunker (firstUpload ++ indexFirst) fun t cs =>
        p.FromChunks t cs := by
  have hpoints : ((platformService uploadCfg pollingWorker plainChunker).run (idle .blank)
      (firstUpload ++ indexFirst)).map (fun s => s.world.points.length) = some 1 := by decide +kernel
  obtain ⟨s, hs, hlength⟩ := Option.map_eq_some_iff.mp hpoints
  obtain ⟨p, hp⟩ := List.length_eq_one_iff.mp hlength
  have hmem : p ∈ s.world.points := hp ▸ List.mem_singleton_self p
  exact ⟨s, hs, p, hmem, (index_traced uploadCfg pollingWorker plainChunker hs).1 p hmem⟩

end Runs

end LegalRag
