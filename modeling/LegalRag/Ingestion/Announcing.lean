import LegalRag.Db.Documents
import LegalRag.Ingestion.JobPhases

/-!
# What an ingestion job announces

A job commits the final status of its document (`indexed` or `failed`) and publishes it in its next call.
In between it owes the event: `announces` has a phase for that, with the status that the transaction holds
or has committed, and `processDocument_announces` reads off the program that no final status is published
otherwise, and that no execution comes to an end while it owes one.
-/

namespace LegalRag

open Calls Prog

/-- `("indexed", "failed")`. -/
def DocStatus.isFinal : DocStatus → Bool
  | .indexed | .failed => true
  | _ => false

/-- The document has the status. -/
def HasStatus (d : Uuid) (st : DocStatus) (s : Stores) : Prop :=
  ∃ doc ∈ s.documents.rows, doc.id = d ∧ doc.status = st

theorem hasStatus_iff {d : Uuid} {st : DocStatus} {s : Stores} :
    HasStatus d st s ↔ (d, st) ∈ s.documents.rows.map fun doc => (doc.id, doc.status) := by
  simp [HasStatus]

/-- `f"doc:{doc_id}:events"`. -/
def eventsChannel (docId : Uuid) : String := "doc:" ++ toString docId ++ ":events"

theorem eventsChannel_inj {d d' : Uuid} (h : eventsChannel d = eventsChannel d') : d = d' := by
  have hlist := congrArg String.toList h
  simp only [eventsChannel, String.toList_append, List.append_cancel_right_eq, List.append_cancel_left_eq]
    at hlist
  exact uuid_str_inj (String.toList_inj.mp hlist)

/-- No final status is pending; the transaction holds one; it has to be rolled back; the status is
committed and its event comes next. -/
inductive AnnouncePhase where
  | quiet
  | ready (st : DocStatus)
  | dirty
  | owes (st : DocStatus)

/-- What a job on the document `d` may call, with regard to its final status. -/
def announces (d : Uuid) : Protocol JobCalls JobErr AnnouncePhase where
  allows
    | .quiet, .updateDocument d' _ => d' = d
    | .quiet, .publish _ e => e.status.isFinal = false
    | .quiet, _ => True
    | .ready _, o => o = .commit
    | .dirty, o => o = .rollback ∨ o = .openSession
    | .owes st, o => ∃ e : StatusEvent, o = .publish (eventsChannel d) e ∧ e.status = st
  replies _ _ _ := True
  next
    | .quiet, .updateDocument _ u, _ => if u.status.isFinal then .ready u.status else .quiet
    | .ready st, _, _ => .owes st
    | .dirty, _, _ | .owes _, _, _ => .quiet
    | φ, _, _ => φ
  failed
    | .quiet, .updateDocument .., _ | .ready _, _, _ => .dirty
    -- `except Exception` sets another final status
    | .owes _, _, _ => .quiet
    | φ, _, _ => φ

section Programs

variable {d : Uuid} {lib : ChunkerLib} {α β : Type} {φ χ ψ : AnnouncePhase}

/-- A program that ends well ends in the phase `χ`; after an exception nothing is owed. -/
def Leads (χ ψ : AnnouncePhase) : Except JobErr α → Prop
  | .ok _ => ψ = χ
  | .error _ => ψ = .quiet ∨ ψ = .dirty

private theorem leads_quiet (e : JobErr) : Leads χ .quiet (.error e : Except JobErr α) := Or.inl rfl

private theorem leads_dirty (e : JobErr) : Leads χ .dirty (.error e : Except JobErr α) := Or.inr rfl

private theorem leads_bind {p : JobProg α} {f : α → JobProg β} (hp : p.Obeys (announces d) (Leads χ) φ)
    (hf : ∀ a, (f a).Obeys (announces d) (Leads ψ) χ) : (p >>= f).Obeys (announces d) (Leads ψ) φ := by
  refine obeys_bind (hp.mono fun θ r hr => ?_)
  cases r with
  | ok a =>
    obtain rfl : θ = χ := hr
    exact hf a
  | error e => exact hr

private theorem leads_of_only {p : JobProg α} (h : p.Only Silent) :
    p.Obeys (announces d) (Leads .quiet) .quiet := by
  induction p with
  | done r =>
    cases r with
    | ok a => rfl
    | error e => exact Or.inl rfl
  | call o k ih =>
    have ho : Silent o := h.1
    have hk := only_call h
    cases o <;> first | exact ho.elim | exact ⟨trivial, fun a _ => ih _ (hk _), fun e => ih _ (hk _)⟩

private theorem leads_perform {o : JobOp} (ho : Silent o) :
    (job o).Obeys (announces d) (Leads .quiet) .quiet :=
  leads_of_only (only_perform ho)

/-- The UPDATE of the status, to what the transaction then holds. -/
private theorem update_announces (u : StatusUpdate) :
    (job (.updateDocument d u)).Obeys (announces d)
      (Leads (if u.status.isFinal then .ready u.status else .quiet)) .quiet :=
  obeys_perform rfl (fun _ _ => rfl) leads_dirty

private theorem setStatus_announces (st : DocStatus) (error : Option String) (nChunks : Option Nat)
    (markdownKey : Option String) :
    (setStatus d st error nChunks markdownKey).Obeys (announces d)
      (Leads (if st.isFinal then .ready st else .quiet)) .quiet := by
  unfold setStatus
  by_cases hst : st = .indexed
  · rw [if_pos hst]
    exact leads_bind (leads_perform (o := .now) trivial) fun _ => update_announces _
  · rw [if_neg hst]
    exact update_announces _

/-- A session, from where its block leaves the transaction. -/
private theorem scope_announces {body : JobProg α} (hφ : φ = .quiet ∨ φ = .dirty)
    (hbody : body.Obeys (announces d) (Leads χ) .quiet) (hcommit : (announces d).allows χ .commit)
    (hnext : (announces d).next χ .commit () = ψ)
    (hfail : ∀ e, (announces d).failed χ .commit e = .quiet ∨ (announces d).failed χ .commit e = .dirty) :
    (sessionScope body).Obeys (announces d) (Leads ψ) φ := by
  refine scope_obeys ?_ ?_ (fun e => ?_) hbody ?_ ?_ ?_
  · rcases hφ with rfl | rfl
    · trivial
    · exact Or.inr rfl
  · rcases hφ with rfl | rfl <;> rfl
  · rcases hφ with rfl | rfl
    · exact leads_quiet e
    · exact leads_dirty e
  · intro θ a hθ
    obtain rfl : θ = χ := hθ
    exact ⟨hcommit, hnext, hfail⟩
  · intro θ text hθ
    rcases hθ with rfl | rfl
    · exact ⟨trivial, Or.inl rfl, leads_quiet⟩
    · exact ⟨Or.inl rfl, Or.inl rfl, leads_dirty⟩
  · intro θ hθ
    exact hθ

/-- `set_status` to a status that is not final, in a session of its own. -/
private theorem progress_announces (hφ : φ = .quiet ∨ φ = .dirty) {st : DocStatus} (hst : st.isFinal = false)
    (error : Option String) (nChunks : Option Nat) (markdownKey : Option String) :
    (sessionScope (setStatus d st error nChunks markdownKey)).Obeys (announces d) (Leads .quiet) φ := by
  have hbody := @setStatus_announces d st error nChunks markdownKey
  rw [if_neg (by simp [hst])] at hbody
  exact scope_announces hφ hbody trivial rfl fun _ => Or.inl rfl

private theorem publish_quiet {e : StatusEvent} (he : e.status.isFinal = false) :
    (publishStatus d e).Obeys (announces d) (Leads .quiet) .quiet :=
  obeys_perform he (fun _ _ => rfl) leads_quiet

/-- The event that is owed. -/
private theorem publish_owed {e : StatusEvent} :
    (publishStatus d e).Obeys (announces d) (Leads .quiet) (.owes e.status) :=
  obeys_perform ⟨e, rfl, rfl⟩ (fun _ _ => rfl) leads_quiet

private theorem chunkStage_announces (doc : Document) :
    (chunkStage lib d doc).Obeys (announces d) (Leads .quiet) .quiet := by
  refine leads_bind (leads_perform trivial) fun data => ?_
  refine leads_bind (leads_perform trivial) fun parsed => ?_
  refine leads_bind (leads_perform trivial) fun _ => ?_
  refine leads_bind (progress_announces (Or.inl rfl) rfl none none _) fun _ => ?_
  refine leads_bind (publish_quiet rfl) fun _ => ?_
  show (if (chunksOf lib parsed).isEmpty then throw (.exception _) else pure (chunksOf lib parsed) :
    JobProg (List Chunk)).Obeys (announces d) (Leads .quiet) .quiet
  by_cases hnil : (chunksOf lib parsed).isEmpty
  · rw [if_pos hnil]
    exact Or.inl rfl
  · rw [if_neg hnil]
    rfl

private theorem indexStage_announces (doc : Document) (cs : List Chunk) :
    (indexStage d doc cs).Obeys (announces d) (Leads .quiet) .quiet := by
  refine leads_bind (progress_announces (Or.inl rfl) rfl none none none) fun _ => ?_
  refine leads_bind (publish_quiet rfl) fun _ => ?_
  refine leads_bind (leads_perform trivial) fun _ => ?_
  refine leads_bind (leads_of_only (indexChunks_only cs _)) fun rows => ?_
  have hbody : (do
      bulkInsertChunks rows
      setStatus d .indexed none (some rows.length) none : JobProg Unit).Obeys (announces d)
        (Leads (.ready .indexed)) .quiet :=
    leads_bind (leads_perform trivial) fun _ => setStatus_announces .indexed none _ none
  refine leads_bind (scope_announces (Or.inl rfl) hbody rfl rfl fun _ => Or.inr rfl) fun _ => ?_
  exact leads_bind publish_owed fun _ => rfl

private theorem failJob_announces (hφ : φ = .quiet ∨ φ = .dirty) (text : String) :
    (failJob d text).Obeys (announces d) (Leads .quiet) φ := by
  have hbody := @setStatus_announces d .failed (some (cut 2000 text)) none none
  refine leads_bind (scope_announces hφ hbody rfl rfl fun _ => Or.inr rfl) fun _ => ?_
  exact leads_bind publish_owed fun _ => Or.inl rfl

private theorem beginBody_announces : (beginBody d).Obeys (announces d) (Leads .quiet) .quiet := by
  refine leads_bind (obeys_perform trivial (fun _ _ => rfl) leads_quiet) fun row => ?_
  cases row with
  | none => rfl
  | some doc =>
    show (if doc.status = .indexed then pure (.inl .alreadyIndexed)
      else setStatus d .parsing none none none >>= fun _ => pure (.inr doc) :
        JobProg (JobResult ⊕ Document)).Obeys (announces d) (Leads .quiet) .quiet
    by_cases hst : doc.status = .indexed
    · rw [if_pos hst]
      rfl
    · rw [if_neg hst]
      exact leads_bind (setStatus_announces .parsing none none none) fun _ => rfl

/-- A job publishes the final status in the call after its commit, and no other. -/
theorem processDocument_announces :
    (processDocument lib d).Obeys (announces d) (fun ψ _ => ∀ st, ψ ≠ .owes st) .quiet := by
  have hjob : (processDocument lib d).Obeys (announces d) (Leads .quiet) .quiet := by
    have hbegin : (beginJob d).Obeys (announces d) (Leads .quiet) .quiet :=
      scope_announces (Or.inl rfl) beginBody_announces trivial rfl fun _ => Or.inl rfl
    refine leads_bind hbegin fun r => ?_
    cases r with
    | inl r => rfl
    | inr doc =>
      refine leads_bind (publish_quiet rfl) fun _ => ?_
      have hwork := leads_bind (@chunkStage_announces d lib doc) fun cs => indexStage_announces doc cs
      refine obeys_handle (hwork.mono fun ψ r hr => ?_)
      cases r with
      | ok a => exact hr
      | error e =>
        cases e with
        | exception text => exact failJob_announces hr text
        | cancelled => exact hr
  refine hjob.mono fun ψ r hr st hψ => ?_
  subst hψ
  cases r with
  | ok a => cases hr
  | error e => rcases hr with h | h <;> cases h

end Programs

/-! ### The transaction of an execution -/

/-- The final status that a statement sets the document to. -/
def Stmt.finalOf (d : Uuid) : Stmt → Option DocStatus
  | .updateDocument d' u => if d' = d ∧ u.status.isFinal then some u.status else none
  | .insertChunks _ => none

/-- The final statuses that a transaction sets the document to. -/
def finals (d : Uuid) (sts : List Stmt) : List DocStatus := sts.filterMap (·.finalOf d)

/-- The transaction updates no other document. -/
def OwnRow (d : Uuid) (sts : List Stmt) : Prop := ∀ d' u, Stmt.updateDocument d' u ∈ sts → d' = d

/-- What the record of an execution looks like in each phase. -/
def AnnouncePhase.Fits (d : Uuid) (e : Execution) : AnnouncePhase → Prop
  | .quiet => OwnRow d e.pending ∧ finals d e.pending = []
  | .ready st => OwnRow d e.pending ∧ finals d e.pending = [st]
  | .dirty => True
  | .owes st => st.isFinal ∧ e.pending = []

private theorem isFinal_of_mem {d : Uuid} {sts : List Stmt} {st : DocStatus} (h : st ∈ finals d sts) :
    st.isFinal := by
  obtain ⟨x, -, hx⟩ := List.mem_filterMap.mp h
  cases x with
  | updateDocument d' u =>
    simp only [Stmt.finalOf, Option.ite_none_right_eq_some, Option.some.injEq] at hx
    obtain ⟨⟨-, hfinal⟩, rfl⟩ := hx
    exact hfinal
  | insertChunks rows => cases hx

section Fits

variable {d : Uuid} {φ : AnnouncePhase} {o : JobOp} {e : Execution}

theorem fits_quiet_nil (h : e.pending = []) : AnnouncePhase.quiet.Fits d e := by
  unfold AnnouncePhase.Fits
  rw [h]
  refine ⟨?_, rfl⟩
  intro d' u hu
  cases hu

private theorem ownRow_append {x : Stmt} {sts : List Stmt} (h : OwnRow d sts)
    (hx : ∀ d' u, x = .updateDocument d' u → d' = d) : OwnRow d (sts ++ [x]) := by
  intro d' u hu
  rcases List.mem_append.mp hu with hu | hu
  · exact h d' u hu
  · exact hx d' u (List.mem_singleton.mp hu).symm

/-- A statement joins a transaction without a final status. -/
private theorem fits_update (hf : AnnouncePhase.quiet.Fits d e) (u : StatusUpdate) :
    (if u.status.isFinal then AnnouncePhase.ready u.status else .quiet).Fits d
      { e with pending := e.pending ++ [.updateDocument d u] } := by
  obtain ⟨hown, hnone⟩ := hf
  have hown' : OwnRow d (e.pending ++ [.updateDocument d u]) := by
    refine ownRow_append hown fun d' u' hx => ?_
    cases hx
    rfl
  have hfinals : finals d (e.pending ++ [.updateDocument d u]) =
      (Stmt.finalOf d (.updateDocument d u)).toList := by
    unfold finals at hnone ⊢
    rw [List.filterMap_append, hnone, List.nil_append, List.filterMap_cons, List.filterMap_nil]
    cases Stmt.finalOf d (.updateDocument d u) <;> rfl
  by_cases hu : u.status.isFinal
  · rw [if_pos hu]
    refine ⟨hown', ?_⟩
    show finals d (e.pending ++ [.updateDocument d u]) = [u.status]
    rw [hfinals]
    simp [Stmt.finalOf, hu]
  · rw [if_neg hu]
    refine ⟨hown', ?_⟩
    show finals d (e.pending ++ [.updateDocument d u]) = []
    rw [hfinals]
    simp [Stmt.finalOf, hu]

private theorem fits_insert (hf : AnnouncePhase.quiet.Fits d e) (rows : List DocumentChunk) :
    AnnouncePhase.quiet.Fits d { e with pending := e.pending ++ [.insertChunks rows] } := by
  obtain ⟨hown, hnone⟩ := hf
  refine ⟨ownRow_append hown fun d' u hx => ?_, ?_⟩
  · cases hx
  show finals d (e.pending ++ [.insertChunks rows]) = []
  unfold finals at hnone ⊢
  rw [List.filterMap_append, hnone]
  rfl

/-- A call of a transaction without a final status, other than the UPDATE. -/
private theorem fits_after (hf : AnnouncePhase.quiet.Fits d e) (ho : ∀ d' u, o ≠ .updateDocument d' u)
    (a : JobCalls.Resp o) : AnnouncePhase.quiet.Fits d (e.after o a) := by
  cases o with
  | updateDocument d' u => exact absurd rfl (ho d' u)
  | insertChunks rows => exact fits_insert hf rows
  | openSession => exact fits_quiet_nil rfl
  | rollback => exact fits_quiet_nil rfl
  | commit => exact fits_quiet_nil rfl
  | _ => exact hf

/-- After a call that has answered. -/
private theorem announce_next (ha : (announces d).allows φ o) (hf : φ.Fits d e) (a : JobCalls.Resp o) :
    ((announces d).next φ o a).Fits d (e.after o a) := by
  cases φ with
  | quiet =>
    cases o with
    | updateDocument d' u =>
      obtain rfl : d' = d := ha
      exact fits_update hf u
    | _ => exact fits_after hf (fun _ _ h => by cases h) a
  | ready st =>
    obtain rfl : o = .commit := ha
    exact ⟨isFinal_of_mem (hf.2 ▸ List.mem_singleton.mpr rfl), rfl⟩
  | dirty => rcases ha with rfl | rfl <;> exact fits_quiet_nil rfl
  | owes st =>
    obtain ⟨ev, rfl, -⟩ := ha
    exact fits_quiet_nil hf.2

/-- After a call that has failed without effect. -/
private theorem announce_failed (ha : (announces d).allows φ o) (hf : φ.Fits d e) (err : JobErr) :
    ((announces d).failed φ o err).Fits d e := by
  cases φ with
  | quiet => cases o <;> first | exact hf | trivial
  | ready st =>
    obtain rfl : o = .commit := ha
    trivial
  | dirty => trivial
  | owes st => exact fits_quiet_nil hf.2

/-- After a call that has failed although it took effect. -/
private theorem announce_failed_after (ha : (announces d).allows φ o) (hf : φ.Fits d e) (a : JobCalls.Resp o)
    (err : JobErr) : ((announces d).failed φ o err).Fits d (e.after o a) := by
  cases φ with
  | quiet =>
    cases o with
    | updateDocument d' u => trivial
    | _ => exact fits_after hf (fun _ _ h => by cases h) a
  | ready st =>
    obtain rfl : o = .commit := ha
    trivial
  | dirty => trivial
  | owes st =>
    obtain ⟨ev, rfl, -⟩ := ha
    exact fits_quiet_nil hf.2

/-- What the phase says after a call, whatever its outcome. -/
theorem announce_call {pid : Nat} {env : JobReplies} {w : JobWorld} {out : Outcome JobErr}
    {rep : Except JobErr o.Resp} (ha : (announces d).allows φ o) (hf : φ.Fits d (w.executions pid))
    (hrep : out.reply (jobHandler pid env) o w = some rep) :
    ((announces d).after φ o rep).Fits d ((out.world (jobHandler pid env) o w).executions pid) := by
  cases out with
  | ok =>
    obtain rfl : (jobReply pid env o w).1 = rep := Option.some.inj hrep
    show ((announces d).after φ o (jobReply pid env o w).1).Fits d ((jobReply pid env o w).2.executions pid)
    cases hr : (jobReply pid env o w).1 with
    | ok a =>
      rw [jobReply_after hr]
      exact announce_next ha hf a
    | error err =>
      rw [jobReply_error hr]
      exact announce_failed ha hf err
  | raised err applied =>
    obtain rfl : .error err = rep := Option.some.inj hrep
    cases applied with
    | false => exact announce_failed ha hf err
    | true =>
      show ((announces d).failed φ o err).Fits d ((jobReply pid env o w).2.executions pid)
      cases hr : (jobReply pid env o w).1 with
      | ok a =>
        rw [jobReply_after hr]
        exact announce_failed_after ha hf a err
      | error e =>
        rw [jobReply_error hr]
        exact announce_failed ha hf err
  | crashed applied => cases hrep

end Fits

/-! ### The status of the document -/

private theorem hasStatus_stmt {d : Uuid} {st : DocStatus} {x : Stmt} {s s' : Stores}
    (h : s.applyStmt x = some s')
    (hst : HasStatus d st s') : HasStatus d st s ∨ ∃ u, x = .updateDocument d u ∧ u.status = st := by
  cases x with
  | updateDocument d' u =>
    obtain rfl : s.update d' u = s' := Option.some.inj h
    obtain ⟨doc, hdoc, hid, hstatus⟩ := hst
    obtain ⟨doc', hdoc', rfl⟩ : ∃ doc' ∈ s.documents.rows, u.apply d' doc' = doc := List.mem_map.mp hdoc
    unfold StatusUpdate.apply at hid hstatus
    by_cases hd : doc'.id = d'
    · simp only [if_pos hd] at hid hstatus
      exact Or.inr ⟨u, by rw [← hd, hid], hstatus⟩
    · simp only [if_neg hd] at hid hstatus
      exact Or.inl ⟨doc', hdoc', hid, hstatus⟩
  | insertChunks rows =>
    simp only [Stores.applyStmt, Option.ite_none_right_eq_some, Option.map_eq_some_iff] at h
    obtain ⟨-, t, -, rfl⟩ := h
    exact Or.inl hst

/-- A transaction that updates one document sets no final status of another. -/
private theorem finals_other {d d' : Uuid} {sts : List Stmt} (h : OwnRow d sts) (hne : d ≠ d') :
    finals d' sts = [] := by
  refine List.filterMap_eq_nil_iff.mpr fun x hx => ?_
  cases x with
  | updateDocument id u =>
    obtain rfl : id = d := h id u hx
    exact if_neg fun hc => hne hc.1
  | insertChunks rows => rfl

/-- An execution that commits a final status is ready to. -/
theorem ready_of_mem {d d' : Uuid} {φ : AnnouncePhase} {e : Execution} {st : DocStatus}
    (ha : (announces d).allows φ .commit) (hf : φ.Fits d e) (hst : st ∈ finals d' e.pending) :
    d = d' ∧ φ = .ready st := by
  cases φ with
  | quiet =>
    by_cases hd : d = d'
    · rw [← hd, hf.2] at hst
      cases hst
    · rw [finals_other hf.1 hd] at hst
      cases hst
  | ready st' =>
    by_cases hd : d = d'
    · rw [← hd, hf.2] at hst
      exact ⟨hd, by rw [List.mem_singleton.mp hst]⟩
    · rw [finals_other hf.1 hd] at hst
      cases hst
  | dirty => rcases ha with ho | ho <;> cases ho
  | owes st' =>
    obtain ⟨ev, ho, -⟩ := ha
    cases ho

/-- A final status that is new after a transaction is one that the transaction sets. -/
theorem hasStatus_all {d : Uuid} {st : DocStatus} {sts : List Stmt} {s s' : Stores}
    (h : s.applyAll sts = some s')
    (hst : HasStatus d st s') (hfinal : st.isFinal) : HasStatus d st s ∨ st ∈ finals d sts := by
  induction sts generalizing s with
  | nil =>
    obtain rfl : s = s' := Option.some.inj h
    exact Or.inl hst
  | cons x sts ih =>
    obtain ⟨s₁, h₁, h₂⟩ := Option.bind_eq_some_iff.mp h
    rcases ih h₂ with hbefore | hset
    · rcases hasStatus_stmt h₁ hbefore with hold | ⟨u, rfl, rfl⟩
      · exact Or.inl hold
      · refine Or.inr (List.mem_filterMap.mpr ⟨_, List.mem_cons_self .., ?_⟩)
        simp [Stmt.finalOf, hfinal]
    · obtain ⟨y, hy, hyst⟩ := List.mem_filterMap.mp hset
      exact Or.inr (List.mem_filterMap.mpr ⟨y, List.mem_cons_of_mem x hy, hyst⟩)

/-- A commit is refused, or has the effect of the transaction. -/
theorem jobReply_commit (pid : Nat) (env : JobReplies) (w : JobWorld) :
    (jobReply pid env .commit w).2 = w ∨
    (jobReply pid env .commit w).1 = .ok () ∧
      w.stores.applyAll (w.executions pid).pending = some (jobReply pid env .commit w).2.stores := by
  cases hall : w.stores.applyAll (w.executions pid).pending with
  | none =>
    left
    simp only [jobReply, hall]
  | some s =>
    right
    simp only [jobReply, hall, and_self]

end LegalRag
