import LegalRag.Ingestion.JobPhases
import LegalRag.Worker.Platform

/-!
# The status of a document and its error

`set_status` writes `error` only where it is given one, so nothing takes an error away.  A transaction of
a job updates the document at most once, and sets an error exactly with the status `failed`
(`processDocument_updates`); so the two columns agree in all states of a run exactly if no other status is
committed on a document that has an error (`fieldsAgree_iff`).
-/

namespace LegalRag

open Calls Prog Service Relational

/-- The row has an error exactly if its status is `failed`. -/
def Document.Agrees (doc : Document) : Prop := doc.error.isSome ↔ doc.status = .failed

/-- All rows do. -/
def FieldsAgree (s : Stores) : Prop := ∀ doc ∈ s.documents.rows, doc.Agrees

/-- The update sets an error exactly with the status `failed`. -/
def StatusUpdate.Agrees (u : StatusUpdate) : Prop := u.error.isSome ↔ u.status = .failed

/-! ### One update for each transaction -/

/-- The transaction does not update a document; it may have done so. -/
inductive TxPhase where
  | clear
  | updated

/-- What a job may call, with regard to the updates of its transactions. -/
def updatesOnce : Protocol JobCalls JobErr TxPhase where
  allows
    | .clear, .updateDocument _ u => u.Agrees
    | .updated, .updateDocument .. | .updated, .insertChunks _ => False
    | _, _ => True
  replies _ _ _ := True
  next
    | _, .openSession, _ | _, .commit, _ | _, .rollback, _ => .clear
    | _, .updateDocument .., _ => .updated
    | φ, _, _ => φ
  failed
    | _, .updateDocument .., _ => .updated
    | φ, _, _ => φ

section Programs

variable {d : Uuid} {lib : ChunkerLib} {α β : Type} {φ : TxPhase}

/-- A program that ends well leaves no transaction with an update. -/
def Settles (ψ : TxPhase) (r : Except JobErr α) : Prop := ∀ a, r = .ok a → ψ = .clear

private theorem settles_ok (a : α) : Settles .clear (.ok a : Except JobErr α) := fun _ _ => rfl

private theorem settles_error (ψ : TxPhase) (e : JobErr) : Settles ψ (.error e : Except JobErr α) := by
  intro a h
  cases h

private theorem settles_bind {p : JobProg α} {f : α → JobProg β} (hp : p.Obeys updatesOnce Settles φ)
    (hf : ∀ a, (f a).Obeys updatesOnce Settles .clear) : (p >>= f).Obeys updatesOnce Settles φ := by
  refine obeys_bind (hp.mono fun ψ r hr => ?_)
  cases r with
  | ok a =>
    obtain rfl : ψ = .clear := hr a rfl
    exact hf a
  | error e => exact settles_error ψ e

private theorem settles_of_only {p : JobProg α} (h : p.Only Silent) : p.Obeys updatesOnce Settles .clear := by
  induction p with
  | done r =>
    cases r with
    | ok a => exact settles_ok a
    | error e => exact settles_error _ e
  | call o k ih =>
    have ho : Silent o := h.1
    have hk := only_call h
    cases o <;> first | exact ho.elim | exact ⟨trivial, fun a _ => ih _ (hk _), fun e => ih _ (hk _)⟩

private theorem settles_perform {o : JobOp} (ho : Silent o) : (job o).Obeys updatesOnce Settles .clear :=
  settles_of_only (only_perform ho)

private theorem publish_settles (e : StatusEvent) : (publishStatus d e).Obeys updatesOnce Settles .clear :=
  obeys_perform trivial (fun _ _ => settles_ok ()) (settles_error _)

/-- A session ends without an update, whatever its block has done. -/
private theorem scope_settles {body : JobProg α} (hbody : body.Obeys updatesOnce (fun _ _ => True) .clear) :
    (sessionScope body).Obeys updatesOnce Settles φ := by
  refine scope_obeys ?_ ?_ (fun e => settles_error _ e) hbody ?_ ?_ fun ψ _ => settles_error ψ _
  · cases φ <;> trivial
  · cases φ <;> rfl
  · intro ψ a _
    cases ψ <;> exact ⟨trivial, settles_ok a, fun _ => trivial⟩
  · intro ψ text _
    cases ψ <;> exact ⟨trivial, settles_error _ _, settles_error _⟩

private theorem setStatus_updates {st : DocStatus} {error : Option String} (h : error.isSome ↔ st = .failed)
    (nChunks : Option Nat) (markdownKey : Option String) :
    (setStatus d st error nChunks markdownKey).Obeys updatesOnce (fun _ _ => True) .clear := by
  unfold setStatus
  by_cases hst : st = .indexed
  · rw [if_pos hst]
    exact obeys_perform_bind trivial (fun _ _ => obeys_perform h (fun _ _ => trivial) fun _ => trivial)
      fun _ => trivial
  · rw [if_neg hst]
    exact obeys_perform h (fun _ _ => trivial) fun _ => trivial

/-- `set_status` in a session of its own. -/
private theorem progress_settles {st : DocStatus} {error : Option String} (h : error.isSome ↔ st = .failed)
    (nChunks : Option Nat) (markdownKey : Option String) :
    (sessionScope (setStatus d st error nChunks markdownKey)).Obeys updatesOnce Settles φ :=
  scope_settles (setStatus_updates h nChunks markdownKey)

private theorem beginJob_settles : (beginJob d).Obeys updatesOnce Settles φ := by
  refine scope_settles (obeys_perform_bind trivial (fun row _ => ?_) fun _ => trivial)
  cases row with
  | none => trivial
  | some doc =>
    show (if doc.status = .indexed then pure (.inl .alreadyIndexed)
      else setStatus d .parsing none none none >>= fun _ => pure (.inr doc) :
        JobProg (JobResult ⊕ Document)).Obeys updatesOnce (fun _ _ => True) .clear
    by_cases hst : doc.status = .indexed
    · rw [if_pos hst]
      trivial
    · rw [if_neg hst]
      refine obeys_bind ((setStatus_updates (by decide) none none).mono fun ψ r _ => ?_)
      cases r <;> trivial

private theorem chunkStage_settles (doc : Document) :
    (chunkStage lib d doc).Obeys updatesOnce Settles .clear := by
  refine settles_bind (settles_perform trivial) fun data => ?_
  refine settles_bind (settles_perform trivial) fun parsed => ?_
  refine settles_bind (settles_perform trivial) fun _ => ?_
  refine settles_bind (progress_settles (by decide) none _) fun _ => ?_
  refine settles_bind (publish_settles _) fun _ => ?_
  show (if (chunksOf lib parsed).isEmpty then throw (.exception _) else pure (chunksOf lib parsed) :
    JobProg (List Chunk)).Obeys updatesOnce Settles .clear
  by_cases hnil : (chunksOf lib parsed).isEmpty
  · rw [if_pos hnil]
    exact settles_error _ _
  · rw [if_neg hnil]
    exact settles_ok _

private theorem indexStage_settles (doc : Document) (cs : List Chunk) :
    (indexStage d doc cs).Obeys updatesOnce Settles .clear := by
  refine settles_bind (progress_settles (by decide) none none) fun _ => ?_
  refine settles_bind (publish_settles _) fun _ => ?_
  refine settles_bind (settles_perform trivial) fun _ => ?_
  refine settles_bind (settles_of_only (indexChunks_only cs _)) fun rows => ?_
  have hbody : (do
      bulkInsertChunks rows
      setStatus d .indexed none (some rows.length) none : JobProg Unit).Obeys updatesOnce
        (fun _ _ => True) .clear :=
    obeys_perform_bind trivial (fun _ _ => setStatus_updates (by decide) (some rows.length) none) fun _ =>
    trivial
  refine settles_bind (scope_settles hbody) fun _ => ?_
  exact settles_bind (publish_settles _) fun _ => settles_ok _

private theorem failJob_settles (text : String) : (failJob d text).Obeys updatesOnce Settles φ := by
  refine settles_bind (progress_settles (iff_of_true rfl rfl) none none) fun _ => ?_
  exact settles_bind (publish_settles _) fun _ => settles_error _ _

/-- A transaction of a job updates the document once at most, and sets an error exactly with the status
`failed`. -/
theorem processDocument_updates : (processDocument lib d).Obeys updatesOnce Settles .clear := by
  refine settles_bind beginJob_settles fun r => ?_
  cases r with
  | inl r => exact settles_ok r
  | inr doc =>
    refine settles_bind (publish_settles _) fun _ => ?_
    have hwork := settles_bind (@chunkStage_settles d lib doc) fun cs => @indexStage_settles d doc cs
    refine obeys_handle (hwork.mono fun ψ r hr => ?_)
    cases r with
    | ok a => exact hr
    | error e =>
      cases e with
      | exception text => exact failJob_settles text
      | cancelled => exact settles_error _ _

end Programs

/-! ### Transactions -/

/-- The statement inserts chunks. -/
def Stmt.Inserts : Stmt → Prop
  | .insertChunks _ => True
  | .updateDocument .. => False

/-- The statements of a transaction in each phase. -/
def TxPhase.Fits (e : Execution) : TxPhase → Prop
  | .clear => ∀ st ∈ e.pending, st.Inserts
  | .updated => (∀ st ∈ e.pending, st.Inserts) ∨
      ∃ ins d u, e.pending = ins ++ [.updateDocument d u] ∧ (∀ st ∈ ins, st.Inserts) ∧ u.Agrees

private theorem TxPhase.Fits.updated {φ : TxPhase} {e : Execution} (h : φ.Fits e) :
    TxPhase.updated.Fits e := by
  cases φ with
  | clear => exact Or.inl h
  | updated => exact h

section Transactions

variable {s s' : Stores}

/-- INSERTs leave the documents as they are. -/
private theorem applyAll_inserts {ins : List Stmt} (hins : ∀ st ∈ ins, st.Inserts) (sts : List Stmt)
    (h : s.applyAll (ins ++ sts) = some s') : ∃ t : Stores, t.documents = s.documents ∧
    t.applyAll sts = some s' := by
  induction ins generalizing s with
  | nil => exact ⟨s, rfl, h⟩
  | cons st ins ih =>
    obtain ⟨t, ht, hrest⟩ := Option.bind_eq_some_iff.mp h
    obtain ⟨v, hv, hsts⟩ := ih (fun st' hst' => hins st' (List.mem_cons_of_mem _ hst')) hrest
    refine ⟨v, hv.trans ?_, hsts⟩
    have hst : st.Inserts := hins st (List.mem_cons_self ..)
    cases st with
    | updateDocument d u => exact hst.elim
    | insertChunks rows =>
      simp only [Stores.applyStmt] at ht
      split at ht
      · obtain ⟨c, -, rfl⟩ := Option.map_eq_some_iff.mp ht
        rfl
      · cases ht

private theorem documents_of_inserts {ins : List Stmt} (hins : ∀ st ∈ ins, st.Inserts)
    (h : s.applyAll ins = some s') : s'.documents = s.documents := by
  rw [← List.append_nil ins] at h
  obtain ⟨t, ht, hnil⟩ := applyAll_inserts hins [] h
  obtain rfl : t = s' := Option.some.inj hnil
  exact ht

private theorem documents_of_update {ins : List Stmt} {d : Uuid} {u : StatusUpdate}
    (hins : ∀ st ∈ ins, st.Inserts) (h : s.applyAll (ins ++ [.updateDocument d u]) = some s') :
    s'.documents.rows = s.documents.rows.map (u.apply d) := by
  obtain ⟨t, ht, hlast⟩ := applyAll_inserts hins _ h
  obtain rfl : t.update d u = s' := Option.some.inj hlast
  show t.documents.rows.map (u.apply d) = _
  rw [ht]

/-- A row agrees after an update that does, unless it keeps an error that is none. -/
private theorem apply_agrees_iff {d : Uuid} {u : StatusUpdate} {doc : Document} (hu : u.Agrees)
    (hdoc : doc.Agrees) : (u.apply d doc).Agrees ↔ (u.status ≠ .failed → doc.id = d → doc.error = none) := by
  unfold StatusUpdate.apply
  by_cases hid : doc.id = d
  · rw [if_pos hid]
    show ((u.error.or doc.error).isSome ↔ u.status = .failed) ↔ _
    unfold StatusUpdate.Agrees at hu
    by_cases hst : u.status = .failed
    · simp [hst, hu.mpr hst]
    · have herror : u.error = none := by simpa [hst] using hu
      simp [herror, hst, hid]
  · rw [if_neg hid]
    exact iff_of_true hdoc fun _ h => absurd h hid

end Transactions

/-! ### Runs -/

/-- The statements that take effect by a step. -/
def takingEffect (s : JobState) : JobLabel → List Stmt
  | .call pid out =>
    if s.nextOp pid = some .commit ∧ out.applied ∧
      (s.world.stores.applyAll (s.world.executions pid).pending).isSome then
      (s.world.executions pid).pending
    else []
  | _ => []

private theorem takingEffect_call (s : JobState) (pid : Nat) (out : Outcome JobErr) :
    takingEffect s (.call pid out) =
    if s.nextOp pid = some .commit ∧ out.applied ∧
      (s.world.stores.applyAll (s.world.executions pid).pending).isSome then
      (s.world.executions pid).pending
    else [] := rfl

/-- No status but `failed` comes to a document that has an error. -/
def NoStaleError (s : JobState) (l : JobLabel) : Prop :=
  ∀ st ∈ takingEffect s l, ∀ d u, st = .updateDocument d u → u.status ≠ .failed →
    ∀ doc ∈ s.world.stores.documents.rows, doc.id = d → doc.error = none

/-- An execution starts only when no other one is running. -/
def OneAtATime (s : JobState) : JobLabel → Prop
  | .start .. => s.Finished
  | _ => True

/-- Every execution is in a phase of its transactions. -/
abbrev UpdatesOnce (s : JobState) : Prop :=
  s.Obeys (fun _ => updatesOnce) (fun _ => Settles) fun _ pid φ w => φ.Fits (w.executions pid)

section Runs

variable {lib : ChunkerLib} {s s' : JobState} {l : JobLabel} {pid : Nat} {env : JobReplies} {o : JobOp}
  {w : JobWorld} {φ : TxPhase}

private theorem tx_next (ha : updatesOnce.allows φ o) (hf : φ.Fits (w.executions pid)) {a : o.Resp}
    (h : (jobReply pid env o w).1 = .ok a) :
    (updatesOnce.next φ o a).Fits ((jobReply pid env o w).2.executions pid) := by
  rw [jobReply_after h]
  cases o with
  | updateDocument d u =>
    cases φ with
    | clear => exact Or.inr ⟨_, d, u, rfl, hf, ha⟩
    | updated => exact ha.elim
  | insertChunks rows =>
    cases φ with
    | clear =>
      intro st hst
      rcases List.mem_append.mp hst with h | h
      · exact hf st h
      · rw [List.mem_singleton.mp h]
        trivial
    | updated => exact ha.elim
  | openSession => cases φ <;> exact List.forall_mem_nil _
  | commit => cases φ <;> exact List.forall_mem_nil _
  | rollback => cases φ <;> exact List.forall_mem_nil _
  | _ => cases φ <;> exact hf

private theorem tx_failed (ha : updatesOnce.allows φ o) (hf : φ.Fits (w.executions pid)) (e : JobErr)
    {v : JobWorld}
    (hv : v = w ∨ v = (jobReply pid env o w).2) : (updatesOnce.failed φ o e).Fits (v.executions pid) := by
  -- a call whose failure does not change the phase leaves it by success only by emptying the transaction
  cases hr : (jobReply pid env o w).1 with
  | error err =>
    have hsame : v = w := by
      rcases hv with hv | hv
      · exact hv
      · exact hv.trans (jobReply_error hr)
    rw [hsame]
    cases o with
    | updateDocument d u => exact hf.updated
    | _ => cases φ <;> exact hf
  | ok a =>
    have hnext := @tx_next pid env o w φ ha hf a hr
    rcases hv with rfl | rfl
    · cases o with
      | updateDocument d u => exact hf.updated
      | _ => cases φ <;> exact hf
    · cases o with
      | updateDocument d u => cases φ <;> exact hnext.updated
      | openSession => cases φ <;> first | exact hnext | exact hnext.updated
      | commit => cases φ <;> first | exact hnext | exact hnext.updated
      | rollback => cases φ <;> first | exact hnext | exact hnext.updated
      | _ => cases φ <;> exact hnext

private theorem updatesOnce_step (hs : UpdatesOnce s) (h : (ingestionService lib).step s l = some s') :
    UpdatesOnce s' := by
  refine obeys_step ?_ ?_ ?_ hs h
  · intro pid j w
    refine ⟨.clear, processDocument_updates, ?_⟩
    show ∀ st ∈ ((w.begin pid).executions pid).pending, st.Inserts
    simp [JobWorld.begin, Execution.start]
  · intro pid j o k out φ rep _ _ ha hf hrep
    exact Protocol.after_fits (F := fun (φ : TxPhase) (w : JobWorld) => φ.Fits (w.executions pid))
      (fun a hr => ⟨trivial, tx_next ha hf hr⟩) (fun e v hv => tx_failed ha hf e hv) hrep
  · intro q p φ hq _ _ hf
    have hsame : s'.world.executions q = s.world.executions q := by
      rcases step_cases h with ⟨pid, j, rfl, -, rfl⟩ | ⟨pid, out, j, o, k, rfl, -, rfl⟩ | ⟨e, -⟩
      · have hne : q ≠ pid := fun he => hq (by rw [he]; rfl)
        exact Function.update_of_ne hne _ _
      · have hne : q ≠ pid := fun he => hq (by rw [he]; rfl)
        rw [resume_world]
        exact jobHandler_others hne j.replies o s.world out
      · exact e.elim
    show φ.Fits (s'.world.executions q)
    rw [hsame]
    exact hf

/-- What a step does to the documents: nothing, or what the statements do that take effect. -/
private theorem documents_step (h : (ingestionService lib).step s l = some s') :
    (takingEffect s l = [] ∧ s'.world.stores.documents = s.world.stores.documents) ∨
      ∃ pid j o k, s.procs pid = some ⟨j, .call o k⟩ ∧ takingEffect s l =
        (s.world.executions pid).pending ∧
        s.world.stores.applyAll (s.world.executions pid).pending = some s'.world.stores := by
  rcases step_cases h with ⟨pid, j, rfl, -, rfl⟩ | ⟨pid, out, j, o, k, rfl, hproc, rfl⟩ | ⟨e, -⟩
  · exact Or.inl ⟨rfl, rfl⟩
  · have hnext : s.nextOp pid = some o := State.nextOp_call hproc
    rw [resume_world, takingEffect_call, hnext]
    cases happlied : out.applied with
    | false =>
      rw [Outcome.world_of_not_applied happlied, if_neg (by simp)]
      exact Or.inl ⟨rfl, rfl⟩
    | true =>
      rw [Outcome.world_of_applied happlied]
      by_cases hcommit : o = .commit
      · subst hcommit
        cases happ : s.world.stores.applyAll (s.world.executions pid).pending with
        | none =>
          rw [if_neg (by simp)]
          refine Or.inl ⟨rfl, ?_⟩
          have hsame : ((ingestionService lib).handle pid j .commit s.world).2 = s.world := by
            show (jobReply pid j.replies .commit s.world).2 = s.world
            simp only [jobReply, happ]
          rw [hsame]
        | some t =>
          rw [if_pos ⟨rfl, rfl, rfl⟩]
          refine Or.inr ⟨pid, j, _, k, hproc, rfl, ?_⟩
          have hworld : ((ingestionService lib).handle pid j .commit s.world).2.stores = t := by
            show (jobReply pid j.replies .commit s.world).2.stores = t
            simp only [jobReply, happ]
          rw [hworld, happ]
      · -- only a commit writes to the tables
        rw [if_neg (by simp [hcommit])]
        refine Or.inl ⟨rfl, ?_⟩
        rcases jobReply_documents pid j.replies o s.world with hdocs | ⟨ho, -⟩
        · exact hdocs
        · exact absurd ho hcommit
  · exact e.elim

/-- A step leaves the columns in agreement exactly if it meets the condition. -/
private theorem fieldsAgree_step (hs : UpdatesOnce s) (hw : FieldsAgree s.world.stores)
    (h : (ingestionService lib).step s l = some s') : FieldsAgree s'.world.stores ↔ NoStaleError s l := by
  rcases documents_step h with ⟨hnone, hdocs⟩ | ⟨pid, j, o, k, hproc, hsts, happ⟩
  · unfold NoStaleError
    rw [hnone]
    refine iff_of_true ?_ fun _ hst => nomatch hst
    unfold FieldsAgree
    rw [hdocs]
    exact hw
  · obtain ⟨φ, -, hf⟩ := hs pid _ hproc
    unfold NoStaleError
    rw [hsts]
    rcases hf.updated with hins | ⟨ins, d, u, hpending, hins, hu⟩
    · refine iff_of_true ?_ ?_
      · unfold FieldsAgree
        rw [documents_of_inserts hins happ]
        exact hw
      · rintro st hst d u rfl
        exact (hins _ hst).elim
    · rw [hpending] at happ ⊢
      unfold FieldsAgree
      rw [documents_of_update hins happ, List.forall_mem_map]
      have hrows : (∀ doc ∈ s.world.stores.documents.rows, (u.apply d doc).Agrees) ↔
          (u.status ≠ .failed → ∀ doc ∈ s.world.stores.documents.rows, doc.id = d → doc.error = none) := by
        constructor
        · intro h hst doc hdoc
          exact (apply_agrees_iff hu (hw doc hdoc)).mp (h doc hdoc) hst
        · intro h doc hdoc
          exact (apply_agrees_iff hu (hw doc hdoc)).mpr fun hst => h hst doc hdoc
      rw [hrows]
      constructor
      · rintro h st hst d' u' rfl
        rcases List.mem_append.mp hst with hst | hst
        · exact (hins _ hst).elim
        · cases List.mem_singleton.mp hst
          exact h
      · intro h
        exact h _ (List.mem_append_right _ (List.mem_singleton.mpr rfl)) d u rfl

private theorem noStaleError_of_stuck (h : (ingestionService lib).step s l = none) : NoStaleError s l := by
  have hnone : takingEffect s l = [] := by
    cases l with
    | call pid out =>
      refine if_neg ?_
      rintro ⟨hnext, -⟩
      unfold State.nextOp at hnext
      simp only [Service.step] at h
      split at h
      · cases h
      · rename_i hproc
        split at hnext
        · rename_i j o k hcall
          exact hproc j o k hcall
        · cases hnext
    | start pid j => rfl
    | env e => rfl
  unfold NoStaleError
  rw [hnone]
  intro st hst
  cases hst

end Runs

/-- In a run that begins with columns in agreement, of executions on any documents and with any faults,
they agree in all states exactly if no status but `failed` is committed on a document that has an error.
-/
theorem fieldsAgree_iff (lib : ChunkerLib) {w : JobWorld} (hw : FieldsAgree w.stores) (ls : List JobLabel) :
    (∀ ls₁ t, ls₁ <+: ls → (ingestionService lib).run (idle w) ls₁ = some t →
      FieldsAgree t.world.stores) ↔ (ingestionService lib).Meets NoStaleError (idle w) ls :=
  prefixes_iff_meets (Q := fun t => FieldsAgree t.world.stores) (fun _ _ _ => updatesOnce_step)
    (fun _ _ _ => fieldsAgree_step) (fun _ _ => noStaleError_of_stuck) (idle_obeys _ _ _ w) hw

/-! ### A document that fails and is processed again -/

/-- `OneAtATime`, as a test for the executions below `n`. -/
def oneAtATimeBelow (n : Nat) (s : JobState) : JobLabel → Bool
  | .start .. => (List.range n).all s.isFinished
  | _ => true

private theorem oneAtATime_of_below {n : Nat} {s : JobState} {l : JobLabel} (hs : s.Below n)
    (h : oneAtATimeBelow n s l = true) : OneAtATime s l := by
  cases l with
  | start pid j => exact hs.finished h
  | call pid out => trivial
  | env e => trivial

/-- The parser fails; the job ends, and the document is processed again. -/
def failsThenSucceeds : List JobLabel :=
  .start 0 ⟨3, plainReplies⟩ :: List.replicate 6 (.call 0 .ok) ++
  .call 0 (.raised (.exception "ValueError") false) ::
    List.replicate 4 (.call 0 .ok) ++ .start 1 ⟨3, plainReplies⟩ :: List.replicate 27 (.call 1 .ok)

/-- The status and the error of each document after a run. -/
def fieldsAfter (ls : List JobLabel) : Option (List (DocStatus × Option String)) :=
  ((ingestionService plainChunker).run (idle .uploaded) ls).map fun s =>
    s.world.stores.documents.rows.map fun doc => (doc.status, doc.error)

private theorem uploaded_agree : FieldsAgree JobWorld.uploaded.stores := by
  intro doc hdoc
  cases List.mem_singleton.mp hdoc
  exact iff_of_false (by decide) (by decide)

theorem fieldsAgree_iff_uploaded :
    FieldsAgree JobWorld.uploaded.stores ∧
    ((∀ ls₁ t, ls₁ <+: failsThenSucceeds →
      (ingestionService plainChunker).run (idle .uploaded) ls₁ = some t →
      FieldsAgree t.world.stores) ↔ (ingestionService plainChunker).Meets NoStaleError
        (idle .uploaded) failsThenSucceeds) :=
  ⟨uploaded_agree, fieldsAgree_iff plainChunker uploaded_agree failsThenSucceeds⟩

/-- The document is indexed, and has the error of the first execution. -/
theorem fields_disagree :
    fieldsAfter failsThenSucceeds = some [(.indexed, some "ValueError")] ∧
    ¬ ∀ (w : JobWorld) (ls : List JobLabel), FieldsAgree w.stores →
      (ingestionService plainChunker).Meets OneAtATime (idle w) ls →
      ∀ ls₁ t, ls₁ <+: ls → (ingestionService plainChunker).run (idle w) ls₁ = some t →
        FieldsAgree t.world.stores := by
  have hend : fieldsAfter failsThenSucceeds = some [(.indexed, some "ValueError")] := by decide +kernel
  refine ⟨hend, fun h => ?_⟩
  have hmeets : (ingestionService plainChunker).Meets OneAtATime (idle .uploaded) failsThenSucceeds := by
    refine meets_of_below 2 (fun s l => oneAtATimeBelow 2 s l = true) (fun _ _ => oneAtATime_of_below)
      (idle_below 2 _) ?_
    decide +kernel
  obtain ⟨t, ht, hfields⟩ := Option.map_eq_some_iff.mp hend
  have hagree :=
    h .uploaded failsThenSucceeds uploaded_agree hmeets failsThenSucceeds t List.prefix_rfl ht
  obtain ⟨doc, hrows, hdoc⟩ := List.map_eq_singleton_iff.mp hfields
  obtain ⟨hstatus, herror⟩ := Prod.mk.inj hdoc
  have hfailed := (hagree doc (by rw [hrows]; exact List.mem_singleton.mpr rfl)).mp (by rw [herror]; rfl)
  rw [hstatus] at hfailed
  cases hfailed

end LegalRag
