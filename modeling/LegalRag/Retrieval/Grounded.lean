import LegalRag.Calls.Growing
import LegalRag.Retrieval.Contract
import LegalRag.Retrieval.Sources
import LegalRag.Worker.Traced
import Mathlib.Data.Set.Lattice
import Mathlib.Order.CompletePartialOrder

/-!
# From the upload to the prompt

The platform takes uploads and indexes them while users ask questions (`libraryService`).  What
`retrieve_and_rerank` returns for a user is always a chunk of what an execution has parsed of bytes that
this user has uploaded (`retrieved_grounded`): whatever the caches hold, whatever the models and the
rerankers reply, and however uploads, jobs and retrievals interleave, fail and die.
-/

namespace LegalRag

open Calls Prog Service

/-- A call of `retrieve_and_rerank` for a user, as `retrieve_docs_node` makes it. -/
structure RetrievalRequest where
  host : Nat
  order : List Nat
  query : String
  tenantId : Uuid
  userId : Uuid

/-- The platform, and what the retrieval uses besides its points. -/
structure LibraryWorld where
  platform : PlatformState
  served : ServedWorld

/-- The caches and the servers, with the points of the platform. -/
def LibraryWorld.searched (w : LibraryWorld) : ServedWorld :=
  { w.served with caches := { w.served.caches with points := w.platform.world.points } }

/-- A step of the API, of the worker or of its jobs; or something happens to the caches or the servers. -/
inductive LibraryEnv where
  | platform (l : PlatformLabel)
  | served (e : ServerEnv)

def LibraryEnv.step (cfg : ApiSettings) (worker : WorkerSettings) (lib : ChunkerLib) :
    LibraryEnv → LibraryWorld → Option LibraryWorld
  | .platform l, w => ((platformService cfg worker lib).step w.platform l).map fun p => { w with platform := p }
  | .served e, w => some { w with served := e.step w.served }

/-- The retrievals, with everything else as the environment. -/
def libraryService (x : RetrievalSetup) (cfg : ApiSettings) (worker : WorkerSettings) (lib : ChunkerLib) :
    Service LlmCalls LlmErr LibraryWorld RetrievalRequest LibraryEnv (List RetrievedChunk) where
  program r := retrieveAndRerank x r.order r.query r.tenantId (some r.userId) none 20 5 true
  enter _ w := w
  handle _ r := fun o w =>
    ((servedReply r.host o w.searched).1, { w with served := (servedReply r.host o w.searched).2 })
  env := LibraryEnv.step cfg worker lib

abbrev LibraryState := State LlmCalls LlmErr LibraryWorld RetrievalRequest (List RetrievedChunk)

abbrev LibraryLabel := Label LlmErr RetrievalRequest LibraryEnv

/-- The steps of the platform in a run. -/
def platformSteps (ls : List LibraryLabel) : List PlatformLabel :=
  ls.filterMap fun
    | .env (.platform l) => some l
    | _ => none

/-- The chunk is one that an execution of the run has cut from the original of a document of the user. -/
def RetrievedChunk.Grounded (cfg : ApiSettings) (lib : ChunkerLib) (ls : List PlatformLabel) (p : Platform)
    (tenantId userId : Uuid) (c : RetrievedChunk) : Prop :=
  ∃ d ∈ p.api.documents, ∃ data j result, ∃ k ∈ chunksOf lib result,
    (d.tenantId = tenantId ∧ d.userId = userId) ∧
    (d.HasOriginal cfg p.api.objects data ∧ BegunIn ls j ∧ j.docId = d.id ∧
      j.replies.parse data d.mimeType d.title = .ok result) ∧
    c.docId = toString d.id ∧ c.docTitle = d.title ∧ c.text = k.text ∧ c.headingPath = k.headingPath ∧
      c.pageFrom = k.pageFrom ∧ c.pageTo = k.pageTo

section Runs

variable {x : RetrievalSetup} {cfg : ApiSettings} {worker : WorkerSettings} {lib : ChunkerLib}
  {J : IngestionJob → Prop}

/-- The points that are traced to an original. -/
def tracedPoints (cfg : ApiSettings) (lib : ChunkerLib) (J : IngestionJob → Prop) (w : LibraryWorld) :
    Set Point :=
  {p | ∃ h, (w.platform.world.jobState h).world.stores.Traced cfg lib J fun t cs => p.FromChunks t cs}

/-- A result has chunks of points of the user only. -/
def OwnChunks (r : RetrievalRequest) (K : Set Point) : Except LlmErr (List RetrievedChunk) → Prop :=
  Ends (fun cs => ∀ c ∈ cs, ∃ p ∈ K, ownPoint r.tenantId r.userId p = true ∧ ChunkOf p c) fun _ => True

/-- The invariant of the retrievals. -/
structure LibrarySound (cfg : ApiSettings) (lib : ChunkerLib) (J : IngestionJob → Prop)
    (s : LibraryState) : Prop where
  traced : PlatformTraced cfg lib J s.world.platform
  sees : s.Sees FromPoints OwnChunks (tracedPoints cfg lib J)

/-- The replies of a search are points of the platform. -/
private theorem fromPoints_searched {w : LibraryWorld} (hw : PlatformTraced cfg lib J w.platform)
    {K : Set Point} (hK : tracedPoints cfg lib J w ≤ K) (host : Nat) (o : LlmOp) :
    FromPoints K o (servedReply host o w.searched).1 := by
  cases o with
  | search vector must limit =>
    intro found hfound
    obtain rfl := Except.ok.inj hfound
    refine ⟨List.length_take_le _ _, fun f hf => ?_⟩
    have hmem := Ranked.mem_ranked.mp (List.mem_of_mem_take hf)
    obtain ⟨p, hp, rfl⟩ := List.mem_map.mp hmem
    obtain ⟨hin, hpasses⟩ := List.mem_filter.mp hp
    exact ⟨hK ⟨hw.originals.sound.keyed, (hw.jobs _).index.points p hin⟩, hpasses⟩
  | _ => trivial

/-- What is traced stays so. -/
private theorem tracedPoints_step {w : LibraryWorld} (hw : PlatformTraced cfg lib J w.platform)
    {l : PlatformLabel} {s' : PlatformState}
    (h : (platformService cfg worker lib).step w.platform l = some s') :
    tracedPoints cfg lib J w ≤ tracedPoints cfg lib J { w with platform := s' } := by
  rintro p ⟨hkeyed, ht⟩
  obtain ⟨horiginals, hobjects⟩ := hw.originals.step h
  have hkeeps : (w.platform.world.jobState hkeyed).world.stores.Keeps
      (s'.world.jobState horiginals.sound.keyed).world.stores :=
    ⟨(platform_step hw.originals.sound h).2.grows, hobjects⟩
  exact ⟨horiginals.sound.keyed, hkeeps.traced ht⟩

/-- The executions that begin in a step of the platform are of `J`. -/
def PlatformBegins (J : IngestionJob → Prop) : LibraryLabel → Prop
  | .env (.platform l) => Begins J l
  | _ => True

private theorem LibrarySound.step {s s' : LibraryState} {l : LibraryLabel} (hs : LibrarySound cfg lib J s)
    (hl : PlatformBegins J l) (h : (libraryService x cfg worker lib).step s l = some s') :
    LibrarySound cfg lib J s' := by
  have hsees : tracedPoints cfg lib J s.world ≤ tracedPoints cfg lib J s'.world →
      s'.Sees FromPoints OwnChunks (tracedPoints cfg lib J) := by
    intro hgrows
    refine sees_step (fun r K => ?_) (fun pid r o K hK => ?_) (fun K o e => ?_) hgrows hs.sees h
    · exact retrieveAndRerank_sources r.order r.query 20 5 true
    · exact fromPoints_searched hs.traced hK r.host o
    · cases o <;> first | trivial | exact nofun
  rcases step_cases h with ⟨pid, r, rfl, -, rfl⟩ | ⟨pid, out, r, o, k, rfl, -, hs'⟩ | ⟨e, w, rfl, hw, rfl⟩
  · exact ⟨hs.traced, hsees le_rfl⟩
  · have hplatform : s'.world.platform = s.world.platform := by
      rw [hs', resume_world]
      rcases Outcome.world_eq ((libraryService x cfg worker lib).handle pid r) o s.world out with heq | heq <;>
        rw [heq]
      rfl
    have hsame : tracedPoints cfg lib J s'.world = tracedPoints cfg lib J s.world := by
      unfold tracedPoints
      rw [hplatform]
    exact ⟨hplatform ▸ hs.traced, hsees hsame.ge⟩
  · cases e with
    | served e =>
      obtain rfl := Option.some.inj hw
      exact ⟨hs.traced, hsees le_rfl⟩
    | platform l =>
      obtain ⟨t, ht, rfl⟩ := Option.map_eq_some_iff.mp hw
      exact ⟨hs.traced.step hl ht, hsees (tracedPoints_step hs.traced ht)⟩

private theorem platformBegins_of_mem {ls : List LibraryLabel} {l : LibraryLabel} (h : l ∈ ls) :
    PlatformBegins (BegunIn (platformSteps ls)) l := by
  unfold PlatformBegins
  split
  · rename_i l'
    exact begins_of_mem (List.mem_filterMap.mpr ⟨_, h, rfl⟩)
  · trivial

/-- What is retrieved for a user comes from the documents that the user has uploaded. -/
theorem retrieved_grounded (x : RetrievalSetup) (cfg : ApiSettings) (worker : WorkerSettings)
    (lib : ChunkerLib) (served : ServedWorld) {ls : List LibraryLabel} {s : LibraryState}
    (hr : (libraryService x cfg worker lib).run (idle ⟨idle .blank, served⟩) ls = some s) {pid : Nat}
    {r : RetrievalRequest} {cs : List RetrievedChunk} (hp : s.procs pid = some ⟨r, .done (.ok cs)⟩) :
    ∀ c ∈ cs, c.Grounded cfg lib (platformSteps ls) s.world.platform.world r.tenantId r.userId := by
  have hblank : LibrarySound cfg lib (BegunIn (platformSteps ls)) (idle ⟨idle .blank, served⟩) := by
    refine ⟨platformTraced_blank, ?_⟩
    rintro pid p ⟨⟩
  have hi : LibrarySound cfg lib (BegunIn (platformSteps ls)) s :=
    run_induct (C := fun _ l => l ∈ ls) (fun _ _ _ hi hl hstep => hi.step (platformBegins_of_mem hl) hstep)
      hblank (meets_labels fun _ hl => hl) hr
  have hown : OwnChunks r (tracedPoints cfg lib (BegunIn (platformSteps ls)) s.world) (.ok cs) :=
    hi.sees.result hp
  intro c hc
  obtain ⟨p, ⟨hkeyed, htraced⟩, hpasses, score, final, rfl⟩ := hown c hc
  obtain ⟨d, hd, data, j, result, horiginal, hj, hid, hparse, pointId, v, k, hk, rfl⟩ :=
    Platform.traced_of_stores htraced
  obtain ⟨htenant, huser⟩ := passes_user.mp hpasses
  exact ⟨d, hd, data, j, result, k, hk, ⟨uuid_str_inj htenant, uuid_str_inj huser⟩,
    ⟨horiginal, hj, hid, hparse⟩, rfl, rfl, rfl, rfl, rfl, rfl⟩

/-- What a retrieval has returned. -/
def retrievedBy (pid : Nat) (s : LibraryState) : Option (RetrievalRequest × List RetrievedChunk) :=
  match s.procs pid with
  | some ⟨r, .done (.ok cs)⟩ => some (r, cs)
  | _ => none

private theorem retrievedBy_eq {pid : Nat} {s : LibraryState} {r : RetrievalRequest}
    {cs : List RetrievedChunk} (h : retrievedBy pid s = some (r, cs)) :
    s.procs pid = some ⟨r, .done (.ok cs)⟩ := by
  unfold retrievedBy at h
  split at h
  · rename_i r' cs' hproc
    cases h
    exact hproc
  · cases h

/-- The first user asks a question when the document is indexed. -/
def uploadThenAsk : List LibraryLabel :=
  (firstUpload ++ indexFirst).map (fun l => .env (.platform l)) ++
    .start 0 ⟨0, [], probation, 1, 1⟩ :: List.replicate 13 (.call 0 .ok)

theorem retrieved_grounded_uploadThenAsk :
    ∃ s r cs, (libraryService probationSetup uploadCfg pollingWorker plainChunker).run
        (idle ⟨idle .blank, ⟨.cold [], probationServers⟩⟩) uploadThenAsk = some s ∧
      s.procs 0 = some ⟨r, .done (.ok cs)⟩ ∧ cs.map RetrievedChunk.text = ["Luật"] ∧ ∀ c ∈ cs,
        c.Grounded uploadCfg plainChunker (platformSteps uploadThenAsk) s.world.platform.world r.tenantId
          r.userId := by
  have hrun : (((libraryService probationSetup uploadCfg pollingWorker plainChunker).run
      (idle ⟨idle .blank, ⟨.cold [], probationServers⟩⟩) uploadThenAsk).bind fun s =>
        (retrievedBy 0 s).map fun a => a.2.map RetrievedChunk.text) = some ["Luật"] := by decide +kernel
  obtain ⟨s, hs, hfound⟩ := Option.bind_eq_some_iff.mp hrun
  obtain ⟨⟨r, cs⟩, hcs, htexts⟩ := Option.map_eq_some_iff.mp hfound
  have hp := retrievedBy_eq hcs
  exact ⟨s, r, cs, hs, hp, htexts, retrieved_grounded probationSetup uploadCfg pollingWorker plainChunker
    ⟨.cold [], probationServers⟩ hs hp⟩

end Runs

end LegalRag
