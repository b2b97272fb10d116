import LegalRag.Ingestion.WholeRows
import LegalRag.Worker.Traced

/-!
# The rows of a document are written once

However requests and executions overlap, fail and die, a document has no rows of `document_chunks` and no
`n_chunks`, or it has the rows of all chunks of one execution and their number; and once it has rows, no
later execution adds to them, replaces them or counts them anew (`indexed_once`).

Two executions for one document can both come to their last transaction.  The first to commit wins: the
chunks of each are numbered from zero, so `uq_chunk_doc_idx` refuses the transaction of the other.
-/

namespace LegalRag

open Calls Service Relational

/-- The rows are those of all chunks of what an execution of `J` has made of the original of the document.
-/
def Stores.Whole (cfg : ApiSettings) (lib : ChunkerLib) (J : IngestionJob → Prop) (s : Stores) (d : Uuid)
    (rows : List DocumentChunk) : Prop :=
  s.Traced cfg lib J fun t cs => t.docId = d ∧ WholeRows d cs rows

/-- The document has no rows, or the rows of one execution, and `n_chunks` says how many. -/
def Stores.IndexedOnce (cfg : ApiSettings) (lib : ChunkerLib) (J : IngestionJob → Prop) (s : Stores)
    (doc : Document) : Prop :=
  rowsOf doc.id s = [] ∧ doc.nChunks = none ∨
    s.Whole cfg lib J doc.id (rowsOf doc.id s) ∧ doc.nChunks = some (rowsOf doc.id s).length

/-- The statements of a transaction in each phase. -/
def InsertPhase.Fits (cfg : ApiSettings) (lib : ChunkerLib) (J : IngestionJob → Prop) (d : Uuid)
    (pending : List Stmt) (s : Stores) : InsertPhase → Prop
  | .plain => ∀ st ∈ pending, st.Plain
  | .inserted rows => s.Whole cfg lib J d rows ∧ ∃ sts, (∀ st ∈ sts, st.Plain) ∧
    pending = sts ++ [.insertChunks rows]
  | .counted rows => s.Whole cfg lib J d rows ∧ ∃ sts u, (∀ st ∈ sts, st.Plain) ∧
    u.nChunks = some rows.length ∧ pending = sts ++ [.insertChunks rows, .updateDocument d u]
  | .spoiled => True

/-- What an execution has in hand, and its transaction. -/
structure WholeFits (cfg : ApiSettings) (lib : ChunkerLib) (J : IngestionJob → Prop) (j : IngestionJob)
    (pid : Nat) (χ : TracePhase × Option ParseResult × InsertPhase) (w : JobWorld) : Prop where
  traced : TraceFits cfg J j pid χ.1 w
  parsed : ∀ result, χ.2.1 = some result → ∃ doc data, χ.1 = .parsed doc data result
  tx : χ.2.2.Fits cfg lib J j.docId (w.executions pid).pending w.stores

/-- The protocol of an execution. -/
abbrev tracesInserts (lib : ChunkerLib) (d : Uuid) :
    Protocol JobCalls JobErr (TracePhase × Option ParseResult × InsertPhase) :=
  (traces lib d).both (inserts lib d)

/-- The invariant of the executions. -/
structure JobsWhole (cfg : ApiSettings) (lib : ChunkerLib) (J : IngestionJob → Prop)
    (s : JobState) : Prop where
  procs : s.Obeys (fun j => tracesInserts lib j.docId) (fun _ _ _ => True) (WholeFits cfg lib J)
  indexed : ∀ doc ∈ s.world.stores.documents.rows, s.world.stores.IndexedOnce cfg lib J doc

section Frame

variable {cfg : ApiSettings} {lib : ChunkerLib} {J : IngestionJob → Prop} {s s' : Stores}

private theorem Stores.Keeps.whole (h : s.Keeps s') {d : Uuid} {rows : List DocumentChunk}
    (hw : s.Whole cfg lib J d rows) : s'.Whole cfg lib J d rows := h.traced hw

/-- Where the rows of the document stay, it may get another status. -/
private theorem Stores.Keeps.indexedOnce (h : s.Keeps s') {doc doc' : Document}
    (hi : s.IndexedOnce cfg lib J doc) (hs : doc.SameCount doc')
    (hrows : rowsOf doc.id s' = rowsOf doc.id s) : s'.IndexedOnce cfg lib J doc' := by
  unfold Stores.IndexedOnce
  rw [hs.1.1, hs.2, hrows]
  exact hi.imp_right fun hw => ⟨h.whole hw.1, hw.2⟩

private theorem InsertPhase.Fits.keeps {tx : InsertPhase} {d : Uuid} {pending : List Stmt}
    (hf : tx.Fits cfg lib J d pending s) (h : s.Keeps s') : tx.Fits cfg lib J d pending s' := by
  cases tx with
  | plain => exact hf
  | inserted rows => exact ⟨h.whole hf.1, hf.2⟩
  | counted rows => exact ⟨h.whole hf.1, hf.2⟩
  | spoiled => trivial

private theorem WholeFits.keeps {j : IngestionJob} {pid : Nat}
    {χ : TracePhase × Option ParseResult × InsertPhase} {w w' : JobWorld} (hf : WholeFits cfg lib J j pid χ w)
    (h : w.stores.Keeps w'.stores) (hpending : (w'.executions pid).pending = (w.executions pid).pending) :
    WholeFits cfg lib J j pid χ w' := by
  refine ⟨h.fits hf.traced, hf.parsed, ?_⟩
  rw [hpending]
  exact hf.tx.keeps h

/-- The documents whose rows a step leaves alone, and the new ones. -/
private theorem JobsWhole.others {s s' : JobState} (hs : JobsWhole cfg lib J s) (hprocs : s'.procs = s.procs)
    (hexecutions : s'.world.executions = s.world.executions)
    (hchunks : s'.world.stores.chunks = s.world.stores.chunks) (hkeeps : s.world.stores.Keeps s'.world.stores)
    (hdocs : ∀ doc ∈ s'.world.stores.documents.rows, doc ∈ s.world.stores.documents.rows ∨
      rowsOf doc.id s.world.stores = [] ∧ doc.nChunks = none) : JobsWhole cfg lib J s' := by
  have hrows : ∀ d, rowsOf d s'.world.stores = rowsOf d s.world.stores := by
    intro d
    unfold rowsOf
    rw [hchunks]
  refine ⟨fun pid p hp => ?_, fun doc hdoc => ?_⟩
  · rw [hprocs] at hp
    obtain ⟨χ, hχ, hf⟩ := hs.procs pid p hp
    exact ⟨χ, hχ, hf.keeps hkeeps (congrArg (fun e => (e pid).pending) hexecutions)⟩
  · rcases hdocs doc hdoc with hold | ⟨hnone, hcount⟩
    · exact hkeeps.indexedOnce (hs.indexed doc hold) ⟨.refl doc, rfl⟩ (hrows doc.id)
    · exact Or.inl ⟨(hrows doc.id).trans hnone, hcount⟩

end Frame

/-! ### A commit -/

section Commit

variable {cfg : ApiSettings} {lib : ChunkerLib} {J : IngestionJob → Prop} {s s' : Stores}

/-- The rows of a document after a commit: a document that has rows keeps them as they are. -/
private theorem indexedOnce_commit {d : Uuid} {pending : List Stmt} {parsed : Option ParseResult}
    {tx : InsertPhase} (hi : ∀ doc ∈ s.documents.rows, s.IndexedOnce cfg lib J doc)
    (ha : (inserts lib d).allows (parsed, tx) .commit) (hf : tx.Fits cfg lib J d pending s)
    (happ : s.applyAll pending = some s') (hkeeps : s.Keeps s') :
    (∀ doc ∈ s'.documents.rows, s'.IndexedOnce cfg lib J doc) ∧
      ∀ doc ∈ s.documents.rows, rowsOf doc.id s ≠ [] → rowsOf doc.id s' = rowsOf doc.id s := by
  cases tx with
  | inserted rows => exact absurd ha id
  | spoiled => exact absurd ha id
  | plain =>
    obtain ⟨hchunks, hdocs⟩ := applyAll_plain hf happ
    have hrows : ∀ i, rowsOf i s' = rowsOf i s := by
      intro i
      unfold rowsOf
      rw [hchunks]
    refine ⟨fun doc' hdoc' => ?_, fun doc _ _ => hrows doc.id⟩
    obtain ⟨doc, hdoc, hs⟩ := Related.exists_left hdocs hdoc'
    exact hkeeps.indexedOnce (hi doc hdoc) hs (hrows doc.id)
  | counted rows =>
    obtain ⟨hwhole, sts, u, hsts, hu, rfl⟩ := hf
    obtain ⟨hinsert, hdocs⟩ := applyAll_counted hsts hu happ
    obtain ⟨-, -, -, result, -, -, -, -, -, hnew⟩ := id hwhole
    have happended : ∀ i, rowsOf i s' = rowsOf i s ++ rows.filter fun r => r.documentId = i := by
      intro i
      unfold rowsOf
      rw [Table.rows_insert? hinsert, List.filter_append]
    -- the document of the job had no rows before
    have hempty : ∀ doc ∈ s.documents.rows, doc.id = d → rowsOf doc.id s = [] ∧ doc.nChunks = none := by
      rintro doc hdoc rfl
      rcases hi doc hdoc with hnone | ⟨⟨-, -, -, result', -, -, -, -, -, hold⟩, -⟩
      · exact hnone
      · exact absurd hinsert (none_of_insert? hold (List.filter_sublist.subset) hnew)
    have hother : ∀ i, i ≠ d → rowsOf i s' = rowsOf i s := by
      intro i hid
      have hnil : (rows.filter fun r => r.documentId = i) = [] := by
        refine List.filter_eq_nil_iff.mpr fun r hr => ?_
        rw [hnew.documentId r hr]
        simp [Ne.symm hid]
      rw [happended, hnil, List.append_nil]
    refine ⟨fun doc' hdoc' => ?_, fun doc hdoc hne => ?_⟩
    · obtain ⟨doc, hdoc, hs, hcount⟩ := Related.exists_left hdocs hdoc'
      by_cases hid : doc.id = d
      · obtain ⟨hnone, -⟩ := hempty doc hdoc hid
        have hall : rowsOf doc.id s' = rows := by
          rw [happended, hnone, List.nil_append]
          refine List.filter_eq_self.mpr fun r hr => ?_
          rw [hnew.documentId r hr, hid]
          simp
        right
        rw [hs.1, hall, hcount, if_pos hid, hid]
        exact ⟨hkeeps.whole hwhole, rfl⟩
      · rw [if_neg hid] at hcount
        exact hkeeps.indexedOnce (hi doc hdoc) ⟨hs, hcount⟩ (hother doc.id hid)
    · exact hother doc.id fun hid => hne (hempty doc hdoc hid).1

end Commit

/-! ### The steps of an execution -/

/-- A call that opens or ends a transaction, or adds a statement to it. -/
def TouchesTx : JobCalls.Op → Prop
  | .openSession | .rollback | .commit | .updateDocument .. | .insertChunks _ => True
  | _ => False

section Steps

variable {cfg : ApiSettings} {lib : ChunkerLib} {J : IngestionJob → Prop} {pid : Nat} {j : IngestionJob}
  {env : JobReplies} {o : JobOp} {w : JobWorld} {d : Uuid} {χ : TracePhase × Option ParseResult × InsertPhase}

private theorem jobReply_sameTx (ho : ¬ TouchesTx o) :
    ((jobReply pid env o w).2.executions pid).pending = (w.executions pid).pending := by
  cases o with
  | getInternal docId => simp [jobReply, JobWorld.setExecution]
  | _ => first | exact absurd trivial ho | rfl

/-- Only a commit changes the tables. -/
private theorem jobReply_tables :
    ((jobReply pid env o w).2.stores.documents = w.stores.documents ∧
    (jobReply pid env o w).2.stores.chunks = w.stores.chunks) ∨
      o = .commit ∧ w.stores.applyAll (w.executions pid).pending = some (jobReply pid env o w).2.stores := by
  cases o with
  | updateDocument docId u => exact Or.inl ⟨congrArg _ (w.statement_stores pid _), congrArg _ (w.statement_stores pid _)⟩
  | insertChunks rows => exact Or.inl ⟨congrArg _ (w.statement_stores pid _), congrArg _ (w.statement_stores pid _)⟩
  | commit =>
    simp only [jobReply]
    split
    · exact Or.inl ⟨rfl, rfl⟩
    · rename_i s hs
      exact Or.inr ⟨trivial, hs⟩
  | _ => exact Or.inl ⟨rfl, rfl⟩

/-- What the parser has returned last is what the execution has in hand. -/
private theorem parsed_next (ha : (tracesInserts lib d).allows χ o)
    (hp : ∀ result, χ.2.1 = some result → ∃ doc data, χ.1 = .parsed doc data result) (a : o.Resp) :
    ∀ result, ((tracesInserts lib d).next χ o a).2.1 = some result →
      ∃ doc data, ((tracesInserts lib d).next χ o a).1 = .parsed doc data result := by
  obtain ⟨φ, parsed, tx⟩ := χ
  obtain ⟨hφ, -⟩ := ha
  intro result hresult
  -- a call that the parser does not answer
  have hstay : parsed = some result → ∃ doc data, (traces lib d).next φ o a = .parsed doc data result := by
    intro hparsed
    obtain ⟨doc, data, rfl⟩ := hp result hparsed
    exact ⟨doc, data, by cases o <;> rfl⟩
  cases o with
  | parseFile data mimeType filename =>
    cases φ with
    | fetched doc data' =>
      obtain rfl : a = result := by
        cases tx <;> exact Option.some.inj hresult
      exact ⟨doc, data', rfl⟩
    | _ => exact absurd hφ id
  | _ => exact hstay (by cases tx <;> exact hresult)

/-- The transaction after a call that has answered. -/
private theorem insertFits_next (ha : (tracesInserts lib j.docId).allows χ o)
    (hf : WholeFits cfg lib J j pid χ w) {a : o.Resp} (hr : (jobReply pid env o w).1 = .ok a) :
    ((tracesInserts lib j.docId).next χ o a).2.2.Fits cfg lib J j.docId
      ((jobReply pid env o w).2.executions pid).pending w.stores := by
  rw [jobReply_after hr]
  obtain ⟨φ, parsed, tx⟩ := χ
  obtain ⟨-, ha⟩ := ha
  obtain ⟨htraced, hparsed, htx⟩ := hf
  cases o with
  | openSession => cases tx <;> exact List.forall_mem_nil _
  | rollback => cases tx <;> exact List.forall_mem_nil _
  | commit => cases tx <;> exact List.forall_mem_nil _
  | updateDocument docId u =>
    cases tx with
    | plain =>
      intro st hst
      rcases List.mem_append.mp hst with hst | hst
      · exact htx st hst
      · rw [List.mem_singleton.mp hst]
        exact ha
    | inserted rows =>
      obtain ⟨rfl, hu⟩ := ha
      obtain ⟨hwhole, sts, hsts, hpending⟩ := htx
      refine ⟨hwhole, sts, u, hsts, hu, ?_⟩
      show (w.executions pid).pending ++ [Stmt.updateDocument j.docId u] = _
      rw [hpending, List.append_assoc]
      rfl
    | counted rows => exact absurd ha id
    | spoiled => exact absurd ha id
  | insertChunks rows =>
    cases tx with
    | plain =>
      obtain ⟨result, hresult, hrows⟩ := ha
      obtain ⟨doc, data, rfl⟩ := hparsed result hresult
      exact ⟨traced_of_fits htraced ⟨htraced.2.1, hrows⟩, _, htx, rfl⟩
    | inserted rows' => exact absurd ha id
    | counted rows' => exact absurd ha id
    | spoiled => exact absurd ha id
  | _ => cases tx <;> exact htx

/-- What an execution knows after a call. -/
private theorem wholeFits_call
    (horiginals : ∀ r ∈ w.stores.documents.rows, ∃ data, r.HasOriginal cfg w.stores.objects data)
    (ha : (tracesInserts lib j.docId).allows χ o) (hf : WholeFits cfg lib J j pid χ w)
    {out : Outcome JobErr} {rep : Except JobErr o.Resp}
    (hkeeps : w.stores.Keeps (out.world (jobHandler pid j.replies) o w).stores)
    (hrep : out.reply (jobHandler pid j.replies) o w = some rep) :
    (∀ a, rep = .ok a → (tracesInserts lib j.docId).replies χ o a) ∧
      WholeFits cfg lib J j pid ((tracesInserts lib j.docId).after χ o rep)
        (out.world (jobHandler pid j.replies) o w) := by
  cases rep with
  | ok a =>
    obtain ⟨hr, hw⟩ : (jobHandler pid j.replies o w).1 = .ok a ∧
        out.world (jobHandler pid j.replies) o w = (jobHandler pid j.replies o w).2 := by
      cases out with
      | ok => exact ⟨Option.some.inj hrep, rfl⟩
      | raised e applied => cases Option.some.inj hrep
      | crashed applied => cases hrep
    refine ⟨?_, hkeeps.fits (traceFits_next horiginals ha.1 hf.traced hr), parsed_next ha hf.parsed a, ?_⟩
    · rintro b ⟨⟩
      exact ⟨traces_replies hr, trivial⟩
    · rw [hw] at hkeeps ⊢
      exact (insertFits_next ha hf hr).keeps hkeeps
  | error e =>
    refine ⟨nofun, hkeeps.fits hf.traced, ?_, ?_⟩
    · obtain ⟨φ, parsed, tx⟩ := χ
      intro result hresult
      exact hf.parsed result (by cases tx <;> cases o <;> exact hresult)
    · obtain ⟨φ, parsed, tx⟩ := χ
      by_cases ho : TouchesTx o
      · have hspoiled : ((inserts lib j.docId).failed (parsed, tx) o e).2 = .spoiled := by
          cases o <;> first | exact absurd ho id | (cases tx <;> rfl)
        show ((inserts lib j.docId).failed (parsed, tx) o e).2.Fits ..
        rw [hspoiled]
        trivial
      · have hsame : ((inserts lib j.docId).failed (parsed, tx) o e).2 = tx := by
          cases o <;> first | exact absurd trivial ho | (cases tx <;> rfl)
        show ((inserts lib j.docId).failed (parsed, tx) o e).2.Fits ..
        rw [hsame]
        rcases Outcome.world_eq (jobHandler pid j.replies) o w out with heq | heq
        · rw [heq]
          exact hf.tx
        · rw [heq] at hkeeps ⊢
          show tx.Fits cfg lib J j.docId ((jobReply pid j.replies o w).2.executions pid).pending _
          rw [jobReply_sameTx ho]
          exact hf.tx.keeps hkeeps

/-- A step of an execution; those that begin are of `J`. -/
private theorem JobsWhole.step {s s' : JobState} {l : JobLabel} (hs : JobsWhole cfg lib J s)
    (horiginals : ∀ r ∈ s.world.stores.documents.rows, ∃ data, r.HasOriginal cfg s.world.stores.objects data)
    (hkeeps : s.world.stores.Keeps s'.world.stores) (hstart : ∀ pid j, l = .start pid j → J j)
    (h : (ingestionService lib).step s l = some s') :
    JobsWhole cfg lib J s' ∧ ∀ doc ∈ s.world.stores.documents.rows, rowsOf doc.id s.world.stores ≠ [] →
      rowsOf doc.id s'.world.stores = rowsOf doc.id s.world.stores := by
  have hprocs : s'.Obeys (fun j => tracesInserts lib j.docId) (fun _ _ _ => True) (WholeFits cfg lib J) := by
    refine obeys_step_of ?_ ?_ ?_ hs.procs h
    · intro pid j hl
      refine ⟨(.unread, none, .plain), ?_, hstart pid j hl, nofun, ?_⟩
      · exact (Prog.obeys_both processDocument_traces processDocument_inserts).mono fun _ _ _ => trivial
      · show ∀ st ∈ ((s.world.begin pid).executions pid).pending, st.Plain
        simp [JobWorld.begin, Execution.start]
    · intro pid j o k out χ rep hl hproc ha hf hrep
      have hworld : s'.world = out.world (jobHandler pid j.replies) o s.world := by
        rw [hl] at h
        simp only [Service.step, hproc, Option.some.injEq] at h
        rw [← h, resume_world]
        rfl
      rw [hworld] at hkeeps
      exact wholeFits_call horiginals ha hf hkeeps hrep
    · intro q p χ hq _ _ hf
      refine hf.keeps hkeeps (congrArg Execution.pending ?_)
      rcases step_cases h with ⟨pid, j, rfl, -, rfl⟩ | ⟨pid, out, j, o, k, rfl, -, rfl⟩ | ⟨e, -⟩
      · exact Function.update_of_ne (fun he => hq (congrArg some he.symm)) _ _
      · have hne : q ≠ pid := fun he => hq (congrArg some he.symm)
        rw [resume_world]
        exact jobHandler_others hne j.replies o s.world out
      · cases e
  -- a step that leaves the tables as they are
  have hsame : s'.world.stores.documents = s.world.stores.documents →
      s'.world.stores.chunks = s.world.stores.chunks →
      JobsWhole cfg lib J s' ∧ ∀ doc ∈ s.world.stores.documents.rows, rowsOf doc.id s.world.stores ≠ [] →
        rowsOf doc.id s'.world.stores = rowsOf doc.id s.world.stores := by
    intro hdocs hchunks
    have hrows : ∀ d, rowsOf d s'.world.stores = rowsOf d s.world.stores := by
      intro d
      unfold rowsOf
      rw [hchunks]
    refine ⟨⟨hprocs, fun doc hdoc => ?_⟩, fun doc _ _ => hrows doc.id⟩
    rw [hdocs] at hdoc
    exact hkeeps.indexedOnce (hs.indexed doc hdoc) ⟨.refl doc, rfl⟩ (hrows doc.id)
  rcases step_cases h with ⟨pid, j, rfl, -, rfl⟩ | ⟨pid, out, j, o, k, rfl, hproc, hs'⟩ | ⟨e, -⟩
  · exact hsame rfl rfl
  · obtain ⟨χ, ⟨ha, -⟩, hf⟩ := hs.procs pid _ hproc
    have hworld : s'.world = out.world ((ingestionService lib).handle pid j) o s.world := by
      rw [hs', resume_world]
    rcases Outcome.world_eq ((ingestionService lib).handle pid j) o s.world out with heq | heq
    · rw [heq] at hworld
      exact hsame (by rw [hworld]) (by rw [hworld])
    · rw [heq] at hworld
      rcases @jobReply_tables pid j.replies o s.world with ⟨hdocs, hchunks⟩ | ⟨rfl, happ⟩
      · exact hsame (by rw [hworld]; exact hdocs) (by rw [hworld]; exact hchunks)
      · rw [hworld] at hkeeps
        obtain ⟨hindexed, hrows⟩ := indexedOnce_commit hs.indexed ha.2 hf.tx happ hkeeps
        refine ⟨⟨hprocs, ?_⟩, ?_⟩ <;> rw [hworld]
        · exact hindexed
        · exact hrows
  · cases e

end Steps

/-! ### Runs of the platform -/

/-- The rows of a document, in the order of the table. -/
def Platform.rowsOf (d : Uuid) (p : Platform) : List DocumentChunk :=
  p.chunks.rows.filter fun r => r.documentId = d

section Runs

variable {cfg : ApiSettings} {worker : WorkerSettings} {lib : ChunkerLib} {J : IngestionJob → Prop}

/-- The invariant of the platform. -/
structure PlatformWhole (cfg : ApiSettings) (lib : ChunkerLib) (J : IngestionJob → Prop)
    (s : PlatformState) : Prop where
  traced : PlatformTraced cfg lib J s
  pending : ∀ q, ∀ d ∈ s.world.api.rowsAt (some q), d.nChunks = none
  jobs : ∀ h, JobsWhole cfg lib J (s.world.jobState h)

private theorem platformWhole_blank : PlatformWhole cfg lib J (idle .blank) where
  traced := platformTraced_blank
  pending q d hd := by
    cases hd
  jobs h := by
    refine ⟨?_, ?_⟩
    · intro pid p hp
      cases hp
    · intro doc hdoc
      cases hdoc

/-- A new row of `documents` has no `n_chunks`. -/
private theorem createDocument_uncounted {rid : Nat} {agent : AgentReplies} {ref : SessionRef}
    {n : NewDocument} {w : ApiWorld} {d : Document}
    (h : (apiHandler rid agent (.createDocument ref n) w).1 = .ok d) : d.nChunks = none := by
  simp only [apiHandler, apiReply] at h
  split at h
  · cases h
  · cases h
    rfl

/-- The rows after a call of the API: those of the table, and rows without `n_chunks`. -/
private theorem apiHandler_uncounted {rid : Nat} {agent : AgentReplies} {o : ApiOp} {w : ApiWorld}
    (hw : ∀ q, ∀ d ∈ w.rowsAt (some q), d.nChunks = none) :
    w.documents ⊆ (apiHandler rid agent o w).2.documents ∧
      (∀ d ∈ (apiHandler rid agent o w).2.documents, d ∈ w.documents ∨ d.nChunks = none) ∧
        ∀ q, ∀ d ∈ (apiHandler rid agent o w).2.rowsAt (some q), d.nChunks = none := by
  have hnone : ∀ v : ApiWorld, v.documents = v.rowsAt none := fun _ => rfl
  -- the rows of one session are others
  have hupdate : ∀ (f : RowPlace → List Document) ref rows q,
      (∀ d ∈ f (some q), d.nChunks = none) → (∀ d ∈ rows, d.nChunks = none) →
        ∀ d ∈ Function.update f (some (rid, ref)) rows (some q), d.nChunks = none := by
    intro f ref rows q hf hrows d hd
    by_cases hq : q = (rid, ref)
    · rw [hq, Function.update_self] at hd
      exact hrows d hd
    · rw [Function.update_of_ne (fun h => hq (Option.some.inj h))] at hd
      exact hf d hd
  rw [hnone, hnone]
  by_cases hcreate : ∃ ref n, o = .createDocument ref n
  · obtain ⟨ref, n, rfl⟩ := hcreate
    rcases createDocument_rows rid agent ref n w with ⟨-, hrows, -⟩ | ⟨d, hok, -, -, hrows, -⟩ <;> rw [hrows]
    · exact ⟨List.Subset.refl _, fun d hd => Or.inl hd, hw⟩
    · rw [Function.update_of_ne (by simp)]
      refine ⟨List.Subset.refl _, fun d' hd' => Or.inl hd', fun q =>
        hupdate _ ref _ q (hw q) fun d' hd' => ?_⟩
      rcases List.mem_append.mp hd' with hd' | hd'
      · exact hw _ d' hd'
      · rw [List.mem_singleton.mp hd']
        exact createDocument_uncounted hok
  · cases apiHandler_rows rid agent o w with
    | same rows uuid =>
      rw [rows]
      exact ⟨List.Subset.refl _, fun d hd => Or.inl hd, hw⟩
    | insert ref n d new id rows uuid => exact absurd ⟨ref, n, rfl⟩ hcreate
    | commit ref rows uuid =>
      rw [rows]
      refine ⟨?_, fun d hd => ?_, fun q => hupdate _ ref _ q (fun d hd => ?_) nofun⟩
      · rw [Function.update_of_ne (by simp), Function.update_self]
        exact List.subset_append_left _ _
      · rw [Function.update_of_ne (by simp), Function.update_self] at hd
        exact (List.mem_append.mp hd).imp_right (hw _ d)
      · rw [Function.update_of_ne (by simp)] at hd
        exact hw q d hd
    | drop ref rows uuid =>
      rw [rows]
      have hsame : Function.update w.rowsAt (some (rid, ref)) [] none = w.rowsAt none :=
        Function.update_of_ne (by simp) _ _
      rw [hsame]
      exact ⟨List.Subset.refl _, fun d hd => Or.inl hd, fun q => hupdate _ ref _ q (hw q) nofun⟩

/-- A row of a chunk has its document. -/
private theorem PlatformTraced.rowsOf_nil {s : PlatformState} (hs : PlatformTraced cfg lib J s) {d : Uuid}
    (hd : ∀ r ∈ s.world.api.documents, r.id ≠ d) : s.world.rowsOf d = [] := by
  refine List.filter_eq_nil_iff.mpr fun r hr hid => ?_
  obtain ⟨doc, data, j, result, ⟨row, hrow, hsame, -⟩, -, -, -, pointId, rowId, c, -, rfl⟩ :=
    (hs.jobs hs.originals.sound.keyed).index.chunks r hr
  exact hd row hrow (hsame.1.trans (of_decide_eq_true hid))

/-- Every step keeps the invariant, and the rows of the documents that have some. -/
private theorem PlatformWhole.step {s s' : PlatformState} {l : PlatformLabel} (hi : PlatformWhole cfg lib J s)
    (hl : Begins J l) (h : (platformService cfg worker lib).step s l = some s') :
    PlatformWhole cfg lib J s' ∧
      ∀ d ∈ s.world.api.documents, s.world.rowsOf d.id ≠ [] → s'.world.rowsOf d.id = s.world.rowsOf d.id := by
  have htraced := hi.traced.step hl h
  obtain ⟨-, hobjects⟩ := hi.traced.originals.step h
  have hgrows := (platform_step hi.traced.originals.sound h).2.grows
  have hkeyed := hi.traced.originals.sound.keyed
  have hkeyed' := htraced.originals.sound.keyed
  have hkeeps : (s.world.jobState hkeyed).world.stores.Keeps (s'.world.jobState hkeyed').world.stores :=
    ⟨hgrows, hobjects⟩
  -- a step of the API or of the broker leaves the rest of the platform alone
  have hothers : (∃ w, s'.world = { s.world with api := w } ∧ s.world.api.documents ⊆ w.documents ∧
      (∀ d ∈ w.documents, d ∈ s.world.api.documents ∨ d.nChunks = none) ∧
        ∀ q, ∀ d ∈ w.rowsAt (some q), d.nChunks = none) →
      PlatformWhole cfg lib J s' ∧
        ∀ d ∈ s.world.api.documents, s.world.rowsOf d.id ≠ [] →
          s'.world.rowsOf d.id = s.world.rowsOf d.id := by
    rintro ⟨w, hw, hsub, hdocs, hpending⟩
    have hrows : ∀ d, s'.world.rowsOf d = s.world.rowsOf d := by
      intro d
      rw [hw]
      rfl
    have hnew : s'.world.api.documents = w.documents := congrArg (·.api.documents) hw
    refine ⟨⟨htraced, ?_, fun _ => ?_⟩, fun d _ _ => hrows d.id⟩
    · rw [hw]
      exact hpending
    · refine (hi.jobs hkeyed).others ?_ ?_ ?_ hkeeps fun doc hdoc => ?_ <;>
        try simp only [Platform.jobState, hw]
      by_cases hold : doc ∈ s.world.api.documents
      · exact Or.inl hold
      · refine Or.inr ⟨hi.traced.rowsOf_nil fun r hr hid => hold ?_, ?_⟩
        · have hr' : r ∈ s'.world.api.documents := hnew ▸ hsub hr
          rwa [← htraced.originals.sound.eq_of_id hr' hdoc hid]
        · have hmem : doc ∈ s'.world.api.documents := hdoc
          exact (hdocs doc (hnew ▸ hmem)).resolve_left hold
  rcases step_cases h with ⟨pid, r, rfl, -, rfl⟩ | ⟨pid, out, req, o, k, rfl, -, hs'⟩ | ⟨e, w, rfl, hw, rfl⟩
  · obtain ⟨hdocs, -, hrows⟩ := openSessions_rows pid s.world.api
    refine hothers ⟨_, rfl, ?_, fun d hd => Or.inl (hdocs ▸ hd), fun q d hd => ?_⟩
    · rw [hdocs]
      exact List.Subset.refl _
    · obtain ⟨rid, ref⟩ := q
      rw [hrows] at hd
      split at hd
      · cases hd
      · exact hi.pending _ d hd
  · obtain ⟨agent, hhandle⟩ := @handle_api cfg worker lib pid req
    have hworld : s'.world = out.world ((platformService cfg worker lib).handle pid req) o s.world := by
      rw [hs', resume_world]
    rcases Outcome.world_eq ((platformService cfg worker lib).handle pid req) o s.world out with heq | heq
    · exact hothers ⟨s.world.api, hworld.trans heq, List.Subset.refl _, fun d hd => Or.inl hd, hi.pending⟩
    · rw [heq, hhandle] at hworld
      exact hothers ⟨_, hworld, apiHandler_uncounted hi.pending⟩
  · cases e with
    | broker e =>
      simp only [platformService, PlatformStep.step, Option.map_eq_some_iff, WorkerStep.step] at hw
      obtain ⟨-, ⟨b, -, rfl⟩, rfl⟩ := hw
      exact hothers ⟨_, rfl, List.Subset.refl _, fun d hd => Or.inl hd, hi.pending⟩
    | job l =>
      simp only [platformService, PlatformStep.step, dif_pos hkeyed, Option.ite_none_right_eq_some,
        Option.map_eq_some_iff] at hw
      obtain ⟨-, t, ht, rfl⟩ := hw
      obtain ⟨hjobs, hrows⟩ := (hi.jobs hkeyed).step
        (fun r hr => (hi.traced.originals.rows none r hr).original) hkeeps
          (fun pid j hj => by subst hj; exact hl) ht
      exact ⟨⟨htraced, hi.pending, fun _ => hjobs⟩, hrows⟩

/-- The document is in the table, with the rows that it had in `s`. -/
def KeepsRows (s t : PlatformState) : Prop :=
  ∀ d ∈ s.world.api.documents, s.world.rowsOf d.id ≠ [] → t.world.rowsOf d.id = s.world.rowsOf d.id ∧
    ∃ d' ∈ t.world.api.documents, d.SameAs d'

private theorem platformWhole_run {ls : List PlatformLabel} {s s' : PlatformState}
    (hs : PlatformWhole cfg lib J s) (hl : ∀ l ∈ ls, Begins J l)
    (hr : (platformService cfg worker lib).run s ls = some s') :
    PlatformWhole cfg lib J s' ∧ KeepsRows s s' := by
  have hstep : ∀ t l t', PlatformWhole cfg lib J t ∧ KeepsRows s t → Begins J l →
      (platformService cfg worker lib).step t l = some t' → PlatformWhole cfg lib J t' ∧ KeepsRows s t' := by
    rintro t l t' ⟨ht, hkept⟩ hl hstep
    obtain ⟨ht', hrows⟩ := ht.step hl hstep
    refine ⟨ht', fun d hd hne => ?_⟩
    obtain ⟨heq, d', hd', hs⟩ := hkept d hd hne
    obtain ⟨d'', hd'', hs'⟩ := (platform_step ht.traced.originals.sound hstep).2.grows d' hd'
    have hstay := hrows d' hd'
    rw [hs.1] at hstay
    exact ⟨(hstay (heq ▸ hne)).trans heq, d'', hd'', hs.trans hs'⟩
  exact run_induct (C := fun _ l => Begins J l) hstep ⟨hs, fun d hd _ => ⟨rfl, d, hd, .refl d⟩⟩
    (meets_labels hl) hr

/-- A document has no rows and no `n_chunks`, or the rows of all chunks of one execution for it, in their
order and numbered from zero, and `n_chunks` is their number.  Rows that are there stay as they are, and
so does their number. -/
theorem indexed_once (cfg : ApiSettings) (worker : WorkerSettings) (lib : ChunkerLib)
    {ls ls' : List PlatformLabel} {s s' : PlatformState}
    (hr : (platformService cfg worker lib).run (idle .blank) ls = some s)
    (hr' : (platformService cfg worker lib).run s ls' = some s') {d : Document}
    (hd : d ∈ s.world.api.documents) :
    (s.world.rowsOf d.id = [] ∧ d.nChunks = none ∨
      (∃ data j result, d.HasOriginal cfg s.world.api.objects data ∧ BegunIn ls j ∧ j.docId = d.id ∧
        j.replies.parse data d.mimeType d.title = .ok result ∧
          WholeRows d.id (chunksOf lib result) (s.world.rowsOf d.id)) ∧
      (s.world.rowsOf d.id).map DocumentChunk.chunkIndex = List.range (s.world.rowsOf d.id).length ∧
      d.nChunks = some (s.world.rowsOf d.id).length) ∧
    (s.world.rowsOf d.id ≠ [] → s'.world.rowsOf d.id = s.world.rowsOf d.id ∧
      ∃ d' ∈ s'.world.api.documents, d.SameCount d') := by
  have hblank : PlatformWhole cfg lib (BegunIn ls) (idle .blank) := platformWhole_blank
  obtain ⟨hi, -⟩ := platformWhole_run hblank (fun _ hl => begins_of_mem hl) hr
  have hsound := hi.traced.originals.sound
  have hone : (s.world.jobState hsound.keyed).world.stores.IndexedOnce cfg lib (BegunIn ls) d :=
    (hi.jobs hsound.keyed).indexed d hd
  refine ⟨hone.imp_right ?_, fun hne => ?_⟩
  · rintro ⟨hwhole, hcount⟩
    obtain ⟨d', hd', data, j, result, horiginal, hj, hid, hparse, hdoc, hrows⟩ :=
      Platform.traced_of_stores hwhole
    obtain rfl : d' = d := hsound.eq_of_id hd' hd hdoc
    refine ⟨⟨data, j, result, horiginal, hj, hid, hparse, hrows⟩, ?_, hcount⟩
    have hlength : (chunksOf lib result).length = (s.world.rowsOf d'.id).length := hrows.rows.length_eq
    rw [← hlength, ← chunkDocument_index]
    exact hrows.numbers
  · have hall : ∀ (ls : List PlatformLabel), ∀ l ∈ ls, Begins (fun _ => True) l := by
      intro ls l _
      unfold Begins
      split <;> trivial
    obtain ⟨hi, -⟩ := platformWhole_run platformWhole_blank (hall ls) hr
    obtain ⟨hi', hkept⟩ := platformWhole_run hi (hall ls') hr'
    obtain ⟨heq, d', hd', hs⟩ := hkept d hd hne
    refine ⟨heq, d', hd', hs, ?_⟩
    -- both counts are the number of the rows
    have hsome : ∀ {t : PlatformState}, PlatformWhole cfg lib (fun _ => True) t →
      ∀ e ∈ t.world.api.documents,
        t.world.rowsOf e.id ≠ [] → e.nChunks = some (t.world.rowsOf e.id).length := by
      intro t ht e he hne
      rcases (ht.jobs ht.traced.originals.sound.keyed).indexed e he with ⟨hnil, -⟩ | ⟨-, hcount⟩
      · exact absurd hnil hne
      · exact hcount
    have hrows : s'.world.rowsOf d'.id = s.world.rowsOf d.id := by rw [hs.1, heq]
    rw [hsome hi' d' hd' (hrows ▸ hne), hsome hi d hd hne, hrows]

/-- Two executions for the first user's document, side by side up to their last commits; the first one
commits. -/
def indexSideBySide : List PlatformLabel :=
  [.env (.broker (.poll 0)), .env (.job (.start 0 ⟨2, plainReplies⟩)),
    .env (.job (.start 1 ⟨2, plainReplies⟩))] ++
    (List.replicate 25 [.env (.job (.call 0 .ok)), .env (.job (.call 1 .ok))]).flatten ++
      [.env (.job (.call 0 .ok))]

/-- The second one is refused, and fails. -/
def secondRefused : List PlatformLabel := List.replicate 6 (.env (.job (.call 1 .ok)))

theorem indexed_once_sideBySide :
    ∃ s s' d, (platformService uploadCfg pollingWorker plainChunker).run (idle .blank)
        (firstUpload ++ indexSideBySide) = some s ∧
      (platformService uploadCfg pollingWorker plainChunker).run s secondRefused = some s' ∧
        d ∈ s.world.api.documents ∧ s'.world.rowsOf d.id = s.world.rowsOf d.id ∧
          s'.world.api.documents.map (fun d => (d.status, d.nChunks)) = [(.failed, some 1)] := by
  have hfirst : ((platformService uploadCfg pollingWorker plainChunker).run (idle .blank)
      (firstUpload ++ indexSideBySide)).map (fun s => (s.world.api.documents.map Document.id,
        (s.world.rowsOf 2).length)) = some ([2], 1) := by decide +kernel
  have hsecond : (((platformService uploadCfg pollingWorker plainChunker).run (idle .blank)
      (firstUpload ++ indexSideBySide)).bind fun s =>
        (platformService uploadCfg pollingWorker plainChunker).run s secondRefused).map
          (fun s => s.world.api.documents.map fun d => (d.status, d.nChunks)) = some [(.failed, some 1)] := by
    decide +kernel
  obtain ⟨s, hs, hdocs⟩ := Option.map_eq_some_iff.mp hfirst
  have hids : s.world.api.documents.map Document.id = [2] := congrArg Prod.fst hdocs
  have hrows : (s.world.rowsOf 2).length = 1 := congrArg Prod.snd hdocs
  obtain ⟨s', hs', hstatus⟩ := Option.map_eq_some_iff.mp hsecond
  rw [hs, Option.bind_some] at hs'
  obtain ⟨d, hd, hid⟩ : ∃ d ∈ s.world.api.documents, d.id = 2 := by
    have hmem : 2 ∈ s.world.api.documents.map Document.id := hids ▸ List.mem_singleton_self 2
    exact List.mem_map.mp hmem
  have hne : s.world.rowsOf d.id ≠ [] := by
    rw [hid]
    exact List.length_pos_iff.mp (hrows ▸ Nat.one_pos)
  exact ⟨s, s', d, hs, hs', hd, ((indexed_once uploadCfg pollingWorker plainChunker hs hs' hd).2 hne).1,
    hstatus⟩

end Runs

end LegalRag
