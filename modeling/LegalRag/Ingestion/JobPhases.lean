import LegalRag.Calls.Effects
import LegalRag.Calls.Protocol
import LegalRag.Ingestion.World

/-!
# The phases of an ingestion job

The row is not read yet; there is nothing to do; the job is past its check; its transaction holds the
update to `indexed`; a statement has failed and the transaction has to be rolled back; the update to
`indexed` is committed. `processDocument_obeys` reads this off the program, and `fits_call` says what a
call tells the job in each phase.
-/

namespace LegalRag

open Calls Prog

inductive JobPhase where
  | unread
  | ended
  | past
  | final
  | dirty
  | indexed
  | halted

/-- What a job on the document `d` may call. -/
def ingests (d : Uuid) : Protocol JobCalls JobErr JobPhase where
  allows
    | .unread, o => o = .openSession ∨ o = .getInternal d
    | .ended, o => o = .commit ∨ o = .rollback
    | .past, .getInternal _ => False
    | .past, .updateDocument d' _ => d' = d
    | .past, _ => True
    | .final, o => o = .commit
    | .dirty, o => o = .rollback ∨ o = .openSession
    | .indexed, o => ∃ channel e, o = .publish channel e
    | .halted, _ => False
  replies _ _ _ := True
  next
    | .unread, .getInternal _, some doc => if doc.status = .indexed then .ended else .past
    | .unread, .getInternal _, none => .ended
    | .past, .updateDocument _ u, _ => if u.status = .indexed then .final else .past
    | .final, _, _ => .indexed
    | .dirty, _, _ => .past
    | φ, _, _ => φ
  failed
    | .unread, .getInternal _, _ => .ended
    | .past, .updateDocument .., _ => .dirty
    | .final, _, .exception _ => .dirty
    -- after the last commit an exception still leads to `failed`
    | .indexed, _, .exception _ => .past
    | .unread, _, _ | .final, _, .cancelled | .indexed, _, .cancelled => .halted
    | φ, _, _ => φ

/-! ### The programs -/

section Programs

variable {d : Uuid} {lib : ChunkerLib} {α β : Type}

/-- Inside the `try` block: a program that ends well ends in the phase `φ`, and an exception leaves the
transaction to be rolled back at worst. -/
def InTry (φ ψ : JobPhase) : Except JobErr α → Prop
  | .ok _ => ψ = φ
  | .error (.exception _) => ψ = .past ∨ ψ = .dirty
  | .error .cancelled => True

private theorem inTry_error {φ φ' ψ : JobPhase} {e : JobErr} (h : InTry φ ψ (.error e : Except JobErr α)) :
    InTry φ' ψ (.error e : Except JobErr β) := by
  cases e with
  | exception text => exact h
  | cancelled => trivial

private theorem inTry_past {φ : JobPhase} (e : JobErr) : InTry φ .past (.error e : Except JobErr α) := by
  cases e with
  | exception text => exact Or.inl rfl
  | cancelled => trivial

private theorem inTry_dirty {φ : JobPhase} (e : JobErr) : InTry φ .dirty (.error e : Except JobErr α) := by
  cases e with
  | exception text => exact Or.inr rfl
  | cancelled => trivial

private theorem inTry_bind {φ χ ψ : JobPhase} {p : JobProg α} {f : α → JobProg β}
    (hp : p.Obeys (ingests d) (InTry χ) φ)
    (hf : ∀ a, (f a).Obeys (ingests d) (InTry ψ) χ) : (p >>= f).Obeys (ingests d) (InTry ψ) φ := by
  refine obeys_bind (hp.mono fun θ r hr => ?_)
  cases r with
  | ok a =>
    obtain rfl : θ = χ := hr
    exact hf a
  | error e => exact inTry_error hr

private theorem inTry_pure {φ : JobPhase} (a : α) : (pure a : JobProg α).Obeys (ingests d) (InTry φ) φ := rfl

/-- A call that touches neither the row of the document nor the channel. -/
def Silent : JobCalls.Op → Prop
  | .getInternal _ | .updateDocument .. | .publish .. => False
  | _ => True

/-- A call that has nothing to do with the row of the document. -/
def Neutral : JobCalls.Op → Prop
  | .getInternal _ | .updateDocument .. => False
  | _ => True

private theorem Silent.neutral {o : JobCalls.Op} (h : Silent o) : Neutral o := by
  cases o <;> first | exact h.elim | trivial

/-- A program that makes such calls only stays in the phase. -/
private theorem inTry_of_only {p : JobProg α} (h : p.Only Neutral) :
    p.Obeys (ingests d) (InTry .past) .past := by
  induction p with
  | done r =>
    cases r with
    | ok a => rfl
    | error e => cases e <;> simp [Obeys, InTry]
  | call o k ih =>
    have ho : Neutral o := h.1
    have hk := only_call h
    cases o <;> first | exact absurd ho id | exact ⟨trivial, fun a _ => ih _ (hk _), fun e => ih _ (hk _)⟩

/-- A session, from the phases in which its block can end. -/
theorem scope_obeys {σ : Type} {P : Protocol JobCalls JobErr σ} {φ φ' : σ} {body : JobProg α}
    {mid post : σ → Except JobErr α → Prop} (hopen : P.allows φ .openSession)
    (hnext : P.next φ .openSession () = φ') (hopenErr : ∀ e, post (P.failed φ .openSession e) (.error e))
    (hbody : body.Obeys P mid φ') (hok : ∀ ψ a, mid ψ (.ok a) → P.allows ψ .commit ∧
      post (P.next ψ .commit ()) (.ok a) ∧
      ∀ e, mid (P.failed ψ .commit e) (.error e))
    (hexc : ∀ ψ text, mid ψ (.error (.exception text)) → P.allows ψ .rollback ∧
      post (P.next ψ .rollback ()) (.error (.exception text)) ∧ ∀ e, post (P.failed ψ .rollback e) (.error e))
    (hcancel : ∀ ψ, mid ψ (.error .cancelled) → post ψ (.error .cancelled)) :
    (sessionScope body).Obeys P post φ := by
  have hcatch : ∀ ψ e, mid ψ (.error e) →
      (exceptException (.done (.error e) : JobProg α) fun text => do
        job .rollback
        throw (.exception text)).Obeys P post ψ := by
    intro ψ e he
    cases e with
    | exception text =>
      obtain ⟨ha, hp, hf⟩ := hexc ψ text he
      exact ⟨ha, fun _ _ => hp, hf⟩
    | cancelled => exact hcancel ψ he
  refine obeys_call hopen (fun _ _ => ?_) hopenErr
  rw [hnext]
  refine obeys_handle (obeys_bind (hbody.mono fun ψ r hr => ?_))
  cases r with
  | error e => exact hcatch ψ e hr
  | ok a =>
    obtain ⟨ha, hp, hf⟩ := hok ψ a hr
    exact ⟨ha, fun _ _ => hp, fun e => hcatch _ e (hf e)⟩

private theorem setStatus_obeys {st : DocStatus} (hst : st ≠ .indexed) (error : Option String)
    (nChunks : Option Nat) (markdownKey : Option String) :
    (setStatus d st error nChunks markdownKey).Obeys (ingests d) (InTry .past) .past := by
  rw [setStatus, if_neg hst]
  exact obeys_perform rfl (fun _ _ => if_neg hst) inTry_dirty

/-- A session of the `try` block, or of the `except` block. -/
private theorem tryScope_obeys {φ χ ψ : JobPhase} {body : JobProg α} (hφ : φ = .past ∨ φ = .dirty)
    (hbody : body.Obeys (ingests d) (InTry χ) .past) (hcommit : (ingests d).allows χ .commit)
    (hnext : (ingests d).next χ .commit () = ψ)
    (hfail : ∀ e, InTry χ ((ingests d).failed χ .commit e) (.error e : Except JobErr α)) :
    (sessionScope body).Obeys (ingests d) (InTry ψ) φ := by
  refine scope_obeys ?_ ?_ (fun e => ?_) hbody ?_ ?_ fun _ _ => trivial
  · rcases hφ with rfl | rfl
    · trivial
    · exact Or.inr rfl
  · rcases hφ with rfl | rfl <;> rfl
  · rcases hφ with rfl | rfl
    · exact inTry_past e
    · exact inTry_dirty e
  · rintro θ a rfl
    exact ⟨hcommit, hnext, hfail⟩
  · rintro θ text (rfl | rfl)
    · exact ⟨trivial, Or.inl rfl, inTry_past⟩
    · exact ⟨Or.inl rfl, Or.inl rfl, inTry_dirty⟩

/-- `set_status` in a session of its own. -/
private theorem progress_obeys {φ : JobPhase} (hφ : φ = .past ∨ φ = .dirty) {st : DocStatus}
    (hst : st ≠ .indexed) (error : Option String) (nChunks : Option Nat) (markdownKey : Option String) :
    (sessionScope (setStatus d st error nChunks markdownKey)).Obeys (ingests d) (InTry .past) φ :=
  tryScope_obeys hφ (setStatus_obeys hst error nChunks markdownKey) trivial rfl inTry_past

private theorem publish_obeys (e : StatusEvent) : (publishStatus d e).Obeys (ingests d) (InTry .past) .past :=
  inTry_of_only (only_perform trivial)

private theorem chunkStage_obeys (doc : Document) :
    (chunkStage lib d doc).Obeys (ingests d) (InTry .past) .past := by
  refine inTry_bind (inTry_of_only (only_perform trivial)) fun data => ?_
  refine inTry_bind (inTry_of_only (only_perform trivial)) fun parsed => ?_
  refine inTry_bind (inTry_of_only (only_perform trivial)) fun _ => ?_
  refine inTry_bind (progress_obeys (Or.inl rfl) (by decide) none none _) fun _ => ?_
  refine inTry_bind (publish_obeys _) fun _ => ?_
  show (if (chunksOf lib parsed).isEmpty then throw (.exception _) else pure (chunksOf lib parsed) :
    JobProg (List Chunk)).Obeys (ingests d) (InTry .past) .past
  by_cases hnil : (chunksOf lib parsed).isEmpty
  · rw [if_pos hnil]
    exact Or.inl rfl
  · rw [if_neg hnil]
    exact inTry_pure _

private theorem buildPoints_only (t : IndexTarget) (cs : List Chunk) (vs : List Embedding) :
    (buildPoints t cs vs).Only Silent := by
  induction cs generalizing vs with
  | nil => cases vs <;> exact only_done _
  | cons c cs ih =>
    cases vs with
    | nil => exact only_done _
    | cons v vs =>
      refine only_bind (only_perform trivial) fun _ => only_bind (only_perform trivial) fun _ => ?_
      exact only_bind (ih vs) fun _ => only_done _

private theorem upsertAll_only (bs : List (List Point)) : (upsertAll bs).Only Silent := by
  induction bs with
  | nil => exact only_done _
  | cons b bs ih => exact only_bind (only_perform trivial) fun _ => ih

theorem indexChunks_only (cs : List Chunk) (t : IndexTarget) : (indexChunks cs t).Only Silent := by
  unfold indexChunks
  split
  · exact only_done _
  · refine only_bind (only_perform trivial) fun vs => only_bind (buildPoints_only t cs vs) fun built => ?_
    exact only_bind (upsertAll_only _) fun _ => only_done _

/-- The block of the last session. -/
private theorem finalBody_obeys (rows : List DocumentChunk) :
    (do
      bulkInsertChunks rows
      setStatus d .indexed none (some rows.length) none : JobProg Unit).Obeys (ingests d)
        (InTry .final) .past := by
  refine inTry_bind (inTry_of_only (only_perform trivial)) fun _ => ?_
  refine inTry_bind (inTry_of_only (only_perform trivial)) fun now => ?_
  exact obeys_perform rfl (fun _ _ => rfl) inTry_dirty

private theorem indexStage_obeys (doc : Document) (cs : List Chunk) :
    (indexStage d doc cs).Obeys (ingests d) (InTry .indexed) .past := by
  refine inTry_bind (progress_obeys (Or.inl rfl) (by decide) none none none) fun _ => ?_
  refine inTry_bind (publish_obeys _) fun _ => ?_
  refine inTry_bind (inTry_of_only (only_perform trivial)) fun _ => ?_
  refine inTry_bind (inTry_of_only ((indexChunks_only cs _).weaken fun _ => Silent.neutral)) fun rows =>
    ?_
  have hfinal : (sessionScope (do
      bulkInsertChunks rows
      setStatus d .indexed none (some rows.length) none)).Obeys (ingests d) (InTry .indexed) .past := by
    refine tryScope_obeys (Or.inl rfl) (finalBody_obeys rows) rfl rfl fun e => ?_
    cases e with
    | exception text => exact Or.inr rfl
    | cancelled => trivial
  refine inTry_bind hfinal fun _ => ?_
  refine inTry_bind (obeys_perform ⟨_, _, rfl⟩ (fun _ _ => rfl) fun e => ?_) fun _ => inTry_pure _
  cases e with
  | exception text => exact Or.inl rfl
  | cancelled => trivial

private theorem failJob_obeys {φ : JobPhase} (hφ : φ = .past ∨ φ = .dirty) (text : String) :
    (failJob d text).Obeys (ingests d) (fun _ _ => True) φ := by
  have htry : (failJob d text).Obeys (ingests d) (InTry .past) φ := by
    refine inTry_bind (progress_obeys hφ (by decide) _ none none) fun _ => ?_
    refine inTry_bind (publish_obeys _) fun _ => ?_
    exact Or.inl rfl
  exact htry.mono fun _ _ _ => trivial

/-- How the block of the first session ends. -/
def AfterCheck (ψ : JobPhase) : Except JobErr (JobResult ⊕ Document) → Prop
  | .ok (.inl _) => ψ = .ended
  | .ok (.inr _) => ψ = .past
  | .error (.exception _) => ψ = .ended ∨ ψ = .past ∨ ψ = .dirty
  | .error .cancelled => True

private theorem beginBody_obeys : (beginBody d).Obeys (ingests d) AfterCheck .unread := by
  refine obeys_call (Or.inr rfl) (fun row _ => ?_) fun e => ?_
  · cases row with
    | none => rfl
    | some doc =>
      show (if doc.status = .indexed then pure (.inl .alreadyIndexed)
        else setStatus d .parsing none none none >>= fun _ => pure (.inr doc) :
          JobProg (JobResult ⊕ Document)).Obeys (ingests d) AfterCheck
            (if doc.status = .indexed then .ended else .past)
      by_cases hst : doc.status = .indexed
      · rw [if_pos hst, if_pos hst]
        rfl
      · rw [if_neg hst, if_neg hst]
        refine obeys_bind ((setStatus_obeys (by decide) none none none).mono fun ψ r hr => ?_)
        cases r with
        | ok a => exact hr
        | error e =>
          cases e with
          | exception text => exact Or.inr hr
          | cancelled => trivial
  · cases e with
    | exception text => exact Or.inl rfl
    | cancelled => trivial

/-- The first session ends past the check if there is work to do. -/
private theorem beginJob_obeys :
    (beginJob d).Obeys (ingests d) (fun ψ r => ∀ doc, r = .ok (.inr doc) → ψ = .past) .unread := by
  have herr : ∀ (ψ : JobPhase) (e : JobErr), ∀ doc, (.error e : Except JobErr (JobResult ⊕ Document)) =
    .ok (.inr doc) → ψ = .past := by
    rintro ψ e doc hdoc
    cases hdoc
  refine scope_obeys (Or.inl rfl) rfl (fun e => herr _ e) beginBody_obeys ?_ ?_ fun ψ _ => herr ψ _
  · rintro ψ (r | doc) rfl
    · refine ⟨Or.inl rfl, ?_, ?_⟩
      · rintro doc hdoc
        cases hdoc
      · rintro (text | _)
        · exact Or.inl rfl
        · trivial
    · refine ⟨trivial, fun _ _ => rfl, ?_⟩
      rintro (text | _)
      · exact Or.inr (Or.inl rfl)
      · trivial
  · rintro ψ text (rfl | rfl | rfl)
    · exact ⟨Or.inr rfl, herr _ _, herr _⟩
    · exact ⟨trivial, herr _ _, herr _⟩
    · exact ⟨Or.inl rfl, herr _ _, herr _⟩

/-- A job makes the calls of its phases. -/
theorem processDocument_obeys : (processDocument lib d).Obeys (ingests d) (fun _ _ => True) .unread := by
  refine obeys_bind (beginJob_obeys.mono fun ψ r hr => ?_)
  rcases r with e | r | doc
  · trivial
  · trivial
  · obtain rfl : ψ = .past := hr doc rfl
    refine obeys_bind ((publish_obeys _).mono fun χ r hr => ?_)
    cases r with
    | error e => trivial
    | ok _ =>
      obtain rfl : χ = .past := hr
      have hwork := inTry_bind (@chunkStage_obeys d lib doc) fun cs => indexStage_obeys doc cs
      refine obeys_handle (hwork.mono fun θ r hr => ?_)
      cases r with
      | ok a => trivial
      | error e =>
        cases e with
        | exception text => exact failJob_obeys hr text
        | cancelled => trivial

end Programs

/-! ### What a job knows in each phase -/

/-- The statement sets the status of the document to `indexed`. -/
def Stmt.setsIndexed (d : Uuid) : Stmt → Bool
  | .updateDocument d' u => d' = d && u.status = .indexed
  | .insertChunks _ => false

/-- One of the statements does. -/
def setIndexed (d : Uuid) (sts : List Stmt) : Bool := sts.any (·.setsIndexed d)

/-- The execution has read the row as not indexed, and has not committed `indexed` itself. -/
def Execution.atWork (d : Uuid) (e : Execution) : Bool :=
  e.loaded.any (fun doc => doc.status ≠ .indexed) && ! setIndexed d e.committed

/-- What the record of an execution looks like in each phase. -/
def JobPhase.Fits (d : Uuid) (e : Execution) : JobPhase → Prop
  | .unread => e = Execution.start
  | .ended => e.pending = []
  | .past => e.atWork d ∧ setIndexed d e.pending = false
  | .final => e.atWork d ∧ setIndexed d e.pending
  | .dirty => e.atWork d
  | .indexed => setIndexed d e.committed
  | .halted => True

/-- The record of an execution after a call that has answered. -/
def Execution.after (e : Execution) : (o : JobCalls.Op) → JobCalls.Resp o → Execution
  | .openSession, _ | .rollback, _ => { e with pending := [] }
  | .getInternal _, row => { e with loaded := row }
  | .updateDocument id u, _ => { e with pending := e.pending ++ [.updateDocument id u] }
  | .insertChunks rows, _ => { e with pending := e.pending ++ [.insertChunks rows] }
  | .commit, _ => { e with pending := [], committed := e.committed ++ e.pending }
  | _, _ => e

/-- A call that is refused changes nothing. -/
theorem jobReply_error {pid : Nat} {env : JobReplies} {o : JobCalls.Op} {w : JobWorld} {err : JobErr}
    (h : (jobReply pid env o w).1 = .error err) : (jobReply pid env o w).2 = w := by
  cases o with
  | updateDocument id u =>
    simp only [jobReply, JobWorld.statement] at h ⊢
    split at h <;> simp_all
  | insertChunks rows =>
    simp only [jobReply, JobWorld.statement] at h ⊢
    split at h <;> simp_all
  | commit =>
    simp only [jobReply] at h ⊢
    split at h <;> simp_all
  | _ => first | rfl | cases h

/-- A call that answers leaves the record that `Execution.after` says. -/
theorem jobReply_after {pid : Nat} {env : JobReplies} {o : JobCalls.Op} {w : JobWorld}
    {a : JobCalls.Resp o} (h : (jobReply pid env o w).1 = .ok a) :
    (jobReply pid env o w).2.executions pid = (w.executions pid).after o a := by
  cases o with
  | updateDocument id u =>
    simp only [jobReply, JobWorld.statement] at h ⊢
    split at h
    · cases h
    · simp_all [JobWorld.setExecution, Execution.after]
  | insertChunks rows =>
    simp only [jobReply, JobWorld.statement] at h ⊢
    split at h
    · cases h
    · simp_all [JobWorld.setExecution, Execution.after]
  | commit =>
    simp only [jobReply] at h ⊢
    split at h
    · cases h
    · simp_all [JobWorld.setExecution, Execution.after]
  | getInternal id =>
    have hrow : w.stores.documents.rows.find? (fun d => d.key = id) = a := Except.ok.inj h
    simp [jobReply, JobWorld.setExecution, Execution.after, hrow]
  | openSession => simp [jobReply, JobWorld.setExecution, Execution.after]
  | rollback => simp [jobReply, JobWorld.setExecution, Execution.after]
  | _ => rfl

/-- The records of the other executions stay as they are. -/
private theorem jobReply_others {pid q : Nat} (hq : q ≠ pid) (env : JobReplies) (o : JobCalls.Op) (w : JobWorld) :
    (jobReply pid env o w).2.executions q = w.executions q := by
  cases o with
  | updateDocument id u =>
    simp only [jobReply, JobWorld.statement]
    split
    · rfl
    · exact Function.update_of_ne hq _ _
  | insertChunks rows =>
    simp only [jobReply, JobWorld.statement]
    split
    · rfl
    · exact Function.update_of_ne hq _ _
  | commit =>
    simp only [jobReply]
    split
    · rfl
    · exact Function.update_of_ne hq _ _
  | getInternal id => exact Function.update_of_ne hq _ _
  | openSession => exact Function.update_of_ne hq _ _
  | rollback => exact Function.update_of_ne hq _ _
  | _ => rfl

/-- They do so however the call ends. -/
theorem jobHandler_others {pid q : Nat} (hq : q ≠ pid) (env : JobReplies) (o : JobCalls.Op) (w : JobWorld)
    (out : Outcome JobErr) : (out.world (jobHandler pid env) o w).executions q = w.executions q := by
  rcases Outcome.world_eq (jobHandler pid env) o w out with hw | hw
  · rw [hw]
  · rw [hw]
    exact jobReply_others hq env o w

/-- Only a commit changes the documents. -/
theorem jobReply_documents (pid : Nat) (env : JobReplies) (o : JobCalls.Op) (w : JobWorld) :
    (jobReply pid env o w).2.stores.documents = w.stores.documents ∨
      o = .commit ∧ w.stores.applyAll (w.executions pid).pending = some (jobReply pid env o w).2.stores := by
  cases o with
  | updateDocument id u => exact Or.inl (congrArg Stores.documents (w.statement_stores pid _))
  | insertChunks rows => exact Or.inl (congrArg Stores.documents (w.statement_stores pid _))
  | commit =>
    simp only [jobReply]
    split
    · exact Or.inl rfl
    · rename_i s hs
      exact Or.inr ⟨trivial, hs⟩
  | _ => exact Or.inl rfl

/-- The program is told of an exception. -/
def raisesException : Outcome JobErr → Bool
  | .raised (.exception _) _ => true
  | _ => false

/-! ### A call, phase by phase -/

section Fits

variable {d : Uuid} {φ : JobPhase} {o : JobCalls.Op} {e : Execution}

theorem setIndexed_append (sts sts' : List Stmt) :
    setIndexed d (sts ++ sts') = (setIndexed d sts || setIndexed d sts') := List.any_append

theorem Execution.atWork_iff :
    e.atWork d ↔ (∃ doc, e.loaded = some doc ∧ doc.status ≠ .indexed) ∧ setIndexed d e.committed = false := by
  cases h : e.loaded <;> simp [Execution.atWork, h]

/-- A commit that does not set `indexed` leaves the execution at work. -/
private theorem atWork_commit (hw : e.atWork d) (hp : setIndexed d e.pending = false) :
    ({ e with pending := [], committed := e.committed ++ e.pending } : Execution).atWork d := by
  obtain ⟨hread, hc⟩ := Execution.atWork_iff.mp hw
  refine Execution.atWork_iff.mpr ⟨hread, ?_⟩
  rw [setIndexed_append, hc, hp]
  rfl

/-- After a call that has answered. -/
theorem fits_next (ha : (ingests d).allows φ o) (hf : φ.Fits d e) (a : JobCalls.Resp o) :
    ((ingests d).next φ o a).Fits d (e.after o a) := by
  cases φ with
  | unread =>
    obtain rfl : e = Execution.start := hf
    rcases ha with rfl | rfl
    · rfl
    · cases a with
      | none => rfl
      | some doc =>
        show (if doc.status = .indexed then JobPhase.ended else .past).Fits d _
        by_cases hst : doc.status = .indexed
        · rw [if_pos hst]
          rfl
        · rw [if_neg hst]
          refine ⟨Execution.atWork_iff.mpr ⟨⟨doc, rfl, hst⟩, rfl⟩, rfl⟩
  | ended =>
    have hp : e.pending = [] := hf
    rcases ha with rfl | rfl
    · rfl
    · rfl
  | past =>
    obtain ⟨hw, hp⟩ := hf
    cases o with
    | getInternal id => exact False.elim ha
    | updateDocument id u =>
      obtain rfl : id = d := ha
      -- the update to `indexed` is the last statement of the job
      show (if u.status = .indexed then JobPhase.final else .past).Fits id _
      by_cases hu : u.status = .indexed
      · rw [if_pos hu]
        exact ⟨hw, by simp [Execution.after, setIndexed, Stmt.setsIndexed, hu]⟩
      · rw [if_neg hu]
        refine ⟨hw, ?_⟩
        show setIndexed id (e.pending ++ [.updateDocument id u]) = false
        rw [setIndexed_append, hp]
        simp [setIndexed, Stmt.setsIndexed, hu]
    | insertChunks rows =>
      refine ⟨hw, ?_⟩
      show setIndexed d (e.pending ++ [.insertChunks rows]) = false
      rw [setIndexed_append, hp]
      rfl
    | commit => exact ⟨atWork_commit hw hp, rfl⟩
    | openSession => exact ⟨hw, rfl⟩
    | rollback => exact ⟨hw, rfl⟩
    | _ => exact ⟨hw, hp⟩
  | final =>
    obtain rfl : o = .commit := ha
    show setIndexed d (e.committed ++ e.pending) = true
    rw [setIndexed_append, hf.2, Bool.or_true]
  | dirty =>
    have hw : e.atWork d := hf
    rcases ha with rfl | rfl
    · exact ⟨hw, rfl⟩
    · exact ⟨hw, rfl⟩
  | indexed =>
    obtain ⟨channel, ev, rfl⟩ := ha
    exact hf
  | halted => exact absurd ha id

/-- After a call that failed without effect. -/
theorem fits_failed (ha : (ingests d).allows φ o) (hf : φ.Fits d e) {err : JobErr}
    (hafter : φ = .indexed → err = .cancelled) : ((ingests d).failed φ o err).Fits d e := by
  cases φ with
  | unread =>
    obtain rfl : e = Execution.start := hf
    rcases ha with rfl | rfl
    · trivial
    · rfl
  | ended => exact hf
  | past =>
    cases o with
    | updateDocument id u => exact hf.1
    | _ => exact hf
  | final =>
    cases err with
    | exception text => exact hf.1
    | cancelled => trivial
  | dirty => exact hf
  | indexed =>
    obtain rfl : err = .cancelled := hafter rfl
    trivial
  | halted => exact absurd ha id

/-- After a call that took effect and failed nevertheless. -/
theorem fits_failed_after (ha : (ingests d).allows φ o) (hf : φ.Fits d e) {err : JobErr}
    (a : JobCalls.Resp o) (hcommit : o = .commit → setIndexed d e.pending → err = .cancelled)
    (hafter : φ = .indexed → err = .cancelled) : ((ingests d).failed φ o err).Fits d (e.after o a) := by
  have hnext := fits_next ha hf a
  cases φ with
  | unread =>
    obtain rfl : e = Execution.start := hf
    rcases ha with rfl | rfl
    · trivial
    · rfl
  | ended => exact hnext
  | past =>
    cases o with
    | updateDocument id u => exact hf.1
    | getInternal id => exact False.elim ha
    | _ => exact hnext
  | final =>
    obtain rfl : o = .commit := ha
    obtain rfl : err = .cancelled := hcommit rfl hf.2
    trivial
  | dirty =>
    have hw : e.atWork d := hf
    rcases ha with rfl | rfl
    · exact hw
    · exact hw
  | indexed =>
    obtain rfl : err = .cancelled := hafter rfl
    trivial
  | halted => exact absurd ha id

end Fits

end LegalRag
