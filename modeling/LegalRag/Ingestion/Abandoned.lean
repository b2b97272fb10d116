import LegalRag.Calls.Exact
import LegalRag.Calls.Verdict
import LegalRag.Ingestion.Announcing
import LegalRag.Ingestion.JobSpec

/-!
# Documents that are left half way

An execution on an existing document, with Postgres there all the time.  Exceptions of other calls lead to
`failed`, but for the one of the event `parsing`, which is published before the `try`; and `except
Exception` does not catch a cancellation.  So the execution leaves the document `indexed` or `failed`
exactly if that event raises nothing, and a cancellation comes only when the last status it has committed
is one of these (`leftFinal_iff`).
-/

namespace LegalRag

open Calls Prog Relational

/-- The document is `indexed` or `failed`. -/
def LeftFinal (d : Uuid) (s : Stores) : Prop := ∃ st, HasStatus d st s ∧ st.isFinal

/-- The calls that leave the worker and do not go to Postgres. -/
def JobOp.isRemote : JobOp → Bool
  | .publish .. | .getObject _ | .putObject .. | .parseFile .. | .embed _ | .deletePoints _ | .upsert _ =>
    true
  | _ => false

/-- Postgres is there: only the other servers raise exceptions.  A cancellation can come at every `await`.
-/
def WithPostgres : JobOp → Outcome JobErr → Prop
  | _, .ok => True
  | o, .raised (.exception _) _ => o.isRemote
  | o, .raised .cancelled _ => o ≠ .now ∧ o ≠ .uuid4
  | _, .crashed _ => False

/-- The status of the document `d` after a statement, if it was `st`. -/
def Stmt.statusAfter (d : Uuid) (st : DocStatus) : Stmt → DocStatus
  | .updateDocument d' u => if d' = d then u.status else st
  | .insertChunks _ => st

/-- The same, after several statements. -/
def reached (d : Uuid) (st : DocStatus) (sts : List Stmt) : DocStatus := sts.foldl (Stmt.statusAfter d) st

/-- What the execution has committed, with what the call commits. -/
def committedWith (pid : Nat) (o : JobOp) (w : JobWorld) (out : Outcome JobErr) : List Stmt :=
  if o = .commit ∧ out.applied ∧ (w.stores.applyAll (w.executions pid).pending).isSome then
    (w.executions pid).committed ++ (w.executions pid).pending
  else (w.executions pid).committed

/-- The event `parsing` raises nothing; and a cancellation comes only when the last status that is
committed is final. -/
def Handled (d : Uuid) (st : DocStatus) (pid : Nat) (env : JobReplies) (o : JobOp) (w : JobWorld)
    (out : Outcome JobErr) : Prop :=
  (∀ text, out.reply (jobHandler pid env) o w = some (.error (.exception text)) →
    ∀ channel e, o = .publish channel e → e.status ≠ .parsing) ∧
    (out.reply (jobHandler pid env) o w = some (.error .cancelled) →
      (reached d st (committedWith pid o w out)).isFinal)

/-! ### The statements that are committed -/

section Committed

variable {d : Uuid} {st : DocStatus} {pid : Nat} {env : JobReplies} {s s' : Stores}

private theorem reached_append (sts sts' : List Stmt) :
    reached d st (sts ++ sts') = reached d (reached d st sts) sts' :=
  List.foldl_append ..

private theorem statusAfter_stmt {x : Stmt} (hs : HasStatus d st s) (h : s.applyStmt x = some s') :
    HasStatus d (x.statusAfter d st) s' := by
  obtain ⟨doc, hdoc, hid, hst⟩ := hs
  cases x with
  | updateDocument d' u =>
    obtain rfl : s.update d' u = s' := Option.some.inj h
    refine ⟨u.apply d' doc, List.mem_map_of_mem hdoc, (u.apply_key d' doc).trans hid, ?_⟩
    show (u.apply d' doc).status = if d' = d then u.status else st
    unfold StatusUpdate.apply
    rw [hid]
    by_cases hd : d = d'
    · rw [if_pos hd, if_pos hd.symm]
    · rw [if_neg hd, if_neg (Ne.symm hd)]
      exact hst
  | insertChunks rows =>
    simp only [Stores.applyStmt] at h
    split at h
    · obtain ⟨t, -, rfl⟩ := Option.map_eq_some_iff.mp h
      exact ⟨doc, hdoc, hid, hst⟩
    · cases h

private theorem hasStatus_applyAll {sts : List Stmt} (hs : HasStatus d st s) (h : s.applyAll sts = some s') :
    HasStatus d (reached d st sts) s' := by
  induction sts generalizing s st with
  | nil =>
    obtain rfl : s = s' := Option.some.inj h
    exact hs
  | cons x sts ih =>
    obtain ⟨t, ht, hrest⟩ := Option.bind_eq_some_iff.mp h
    exact ih (statusAfter_stmt hs ht) hrest

private theorem hasStatus_unique {st' : DocStatus} (h : HasStatus d st s) (h' : HasStatus d st' s) :
    st = st' := by
  obtain ⟨doc, hdoc, hid, rfl⟩ := h
  obtain ⟨doc', hdoc', hid', rfl⟩ := h'
  rw [s.documents.eq_of_key hdoc hdoc' (hid.trans hid'.symm)]

private theorem leftFinal_iff_isFinal (h : HasStatus d st s) : LeftFinal d s ↔ st.isFinal := by
  constructor
  · rintro ⟨st', h', hfinal⟩
    rwa [hasStatus_unique h h']
  · exact fun hfinal => ⟨st, h, hfinal⟩

/-- The record of an execution and its document. -/
def RecordRight (d : Uuid) (st : DocStatus) (pid : Nat) (w : JobWorld) : Prop :=
  HasStatus d (reached d st (w.executions pid).committed) w.stores

private theorem commit_accepted {w : JobWorld} (h : w.stores.applyAll (w.executions pid).pending = some s') :
    (jobReply pid env .commit w).1 = .ok () ∧ (jobReply pid env .commit w).2.stores = s' ∧
      (jobReply pid env .commit w).2.executions pid = { w.executions pid with
        pending := [], committed := (w.executions pid).committed ++ (w.executions pid).pending } := by
  simp [jobReply, h, JobWorld.setExecution]

private theorem commit_refused {w : JobWorld} (h : w.stores.applyAll (w.executions pid).pending = none) :
    jobReply pid env .commit w = (.error (.exception "IntegrityError"), w) := by
  simp [jobReply, h]

/-- Only a commit changes what is committed. -/
private theorem committed_jobReply (o : JobOp) (w : JobWorld) :
    ((jobReply pid env o w).2.executions pid).committed =
    if o = .commit ∧ (w.stores.applyAll (w.executions pid).pending).isSome then
      (w.executions pid).committed ++ (w.executions pid).pending
    else (w.executions pid).committed := by
  cases hr : (jobReply pid env o w).1 with
  | error e =>
    rw [jobReply_error hr, if_neg]
    rintro ⟨rfl, happ⟩
    obtain ⟨t, ht⟩ := Option.isSome_iff_exists.mp happ
    rw [(commit_accepted ht).1] at hr
    cases hr
  | ok a =>
    rw [jobReply_after hr]
    cases o with
    | commit =>
      rw [if_pos]
      · rfl
      · refine ⟨rfl, ?_⟩
        cases happ : w.stores.applyAll (w.executions pid).pending with
        | none =>
          rw [commit_refused happ] at hr
          cases hr
        | some t => rfl
    | _ => rfl

private theorem committed_world (o : JobOp) (w : JobWorld) (out : Outcome JobErr) :
    ((out.world (jobHandler pid env) o w).executions pid).committed = committedWith pid o w out := by
  unfold committedWith
  cases happlied : out.applied with
  | false =>
    rw [Outcome.world_of_not_applied happlied, if_neg]
    rintro ⟨-, h, -⟩
    cases h
  | true =>
    rw [Outcome.world_of_applied happlied]
    refine (committed_jobReply o w).trans ?_
    simp only [true_and]

private theorem recordRight_call (o : JobOp) {w : JobWorld} (h : RecordRight d st pid w) :
    RecordRight d st pid (jobHandler pid env o w).2 := by
  show HasStatus d (reached d st ((jobReply pid env o w).2.executions pid).committed)
    (jobReply pid env o w).2.stores
  rw [committed_jobReply]
  rcases jobReply_documents pid env o w with hdocs | ⟨rfl, happ⟩
  · by_cases hcommit : o = .commit ∧ (w.stores.applyAll (w.executions pid).pending).isSome
    · obtain ⟨rfl, happ⟩ := hcommit
      obtain ⟨t, ht⟩ := Option.isSome_iff_exists.mp happ
      rw [if_pos ⟨rfl, happ⟩, reached_append, (commit_accepted ht).2.1]
      exact hasStatus_applyAll h ht
    · rw [if_neg hcommit]
      unfold HasStatus
      rw [hdocs]
      exact h
  · rw [if_pos ⟨rfl, by rw [happ]; rfl⟩, reached_append]
    exact hasStatus_applyAll h happ

/-- At the end of a run the document has the status that the execution has committed last. -/
private theorem recordRight_run {α : Type} (p : JobProg α) (outs : List (Outcome JobErr)) {w : JobWorld}
    (h : RecordRight d st pid w) : RecordRight d st pid (p.run (jobHandler pid env) outs w).2 := by
  have halways : p.Always (jobHandler pid env) (fun _ _ => True) (RecordRight d st pid)
      (fun _ _ => True) w := by
    induction p generalizing w with
    | done r => exact ⟨h, trivial⟩
    | call o k ih =>
      refine ⟨h, fun out _ => ?_⟩
      have hnext : RecordRight d st pid (out.world (jobHandler pid env) o w) := by
        rcases Outcome.world_eq (jobHandler pid env) o w out with hw | hw <;> rw [hw]
        · exact h
        · exact recordRight_call o h
      exact ⟨hnext, fun r _ => ih r hnext⟩
  exact (always_run outs (legal_of_all (fun _ _ => trivial) _ _ _) halways).1

end Committed

/-! ### The execution -/

section JobEnds

variable {d : Uuid} {st : DocStatus} {pid : Nat} {env : JobReplies} {lib : ChunkerLib} {α β : Type}
    {c : Prop} {w : JobWorld}

/-- The status that the execution has committed. -/
def statusNow (d : Uuid) (st : DocStatus) (pid : Nat) (w : JobWorld) : DocStatus :=
  reached d st (w.executions pid).committed

/-- The program is cancelled, and this is handled exactly if the status is final; or all has been handled,
and `M` holds. -/
def Out (d : Uuid) (st : DocStatus) (pid : Nat) (M : Except JobErr α → JobWorld → Prop) (c : Prop) :
    Except JobErr α → JobWorld → Prop
  | .error .cancelled, w => c ↔ (statusNow d st pid w).isFinal
  | .error (.exception text), w => c ∧ M (.error (.exception text)) w
  | .ok a, w => c ∧ M (.ok a) w

/-- Every run of the program, with Postgres there, comes out so. -/
abbrev JobEnds (d : Uuid) (st : DocStatus) (pid : Nat) (env : JobReplies)
    (M : Except JobErr α → JobWorld → Prop) (c : Prop) (p : JobProg α) (w : JobWorld) : Prop :=
  p.Judged (jobHandler pid env) WithPostgres (Handled d st pid env) (Out d st pid M) c w

/-- The status is `st'`, also if the transaction is committed. -/
structure Steady (d : Uuid) (st : DocStatus) (pid : Nat) (st' : DocStatus) (w : JobWorld) : Prop where
  now : statusNow d st pid w = st'
  next : reached d st' (w.executions pid).pending = st'

private theorem ends_bind {M : Except JobErr α → JobWorld → Prop} {M' : Except JobErr β → JobWorld → Prop}
    {p : JobProg α} {f : α → JobProg β} (hp : JobEnds d st pid env M c p w)
    (hf : ∀ (c : Prop) a v, c → M (.ok a) v → JobEnds d st pid env M' c (f a) v)
    (herr : ∀ text v, M (.error (.exception text)) v → M' (.error (.exception text)) v) :
    JobEnds d st pid env M' c (p >>= f) w := by
  refine judged_bind (hp.mono fun c r v hr => ?_)
  rcases r with (text | _) | a
  · exact ⟨hr.1, herr text v hr.2⟩
  · exact hr
  · exact hf c a v hr.1 hr.2

private theorem ends_mono {M M' : Except JobErr α → JobWorld → Prop} {p : JobProg α}
    (hp : JobEnds d st pid env M c p w) (h : ∀ r v, M r v → M' r v) : JobEnds d st pid env M' c p w := by
  refine Judged.mono hp fun c r v hr => ?_
  rcases r with (text | _) | a
  · exact ⟨hr.1, h _ v hr.2⟩
  · exact hr
  · exact ⟨hr.1, h _ v hr.2⟩

/-- A cancellation is handled exactly if the status is final. -/
private theorem handled_cancelled {o : JobOp} {out : Outcome JobErr}
    (h : out.reply (jobHandler pid env) o w = some (.error .cancelled)) :
    Handled d st pid env o w out ↔ (statusNow d st pid (out.world (jobHandler pid env) o w)).isFinal := by
  unfold Handled statusNow
  rw [h, committed_world]
  constructor
  · exact fun hall => hall.2 rfl
  · intro hfinal
    refine ⟨fun text htext => ?_, fun _ => hfinal⟩
    cases htext

/-- A call: what it answers, that it is refused, or that it raises. -/
private theorem ends_call {o : JobOp} {M : Except JobErr o.Resp → JobWorld → Prop} (hc : c)
    (hpublish : ∀ channel e, o = .publish channel e → e.status ≠ .parsing)
    (hok : ∀ a, (jobReply pid env o w).1 = .ok a → M (.ok a) (jobReply pid env o w).2)
    (hrefused : ∀ text, (jobReply pid env o w).1 = .error (.exception text) →
      M (.error (.exception text)) w)
    (hraised : o.isRemote → ∀ text v, v = w ∨ v = (jobReply pid env o w).2 →
      M (.error (.exception text)) v) : JobEnds d st pid env M c (job o) w := by
  intro out hB r hr
  have hworld := Outcome.world_eq (jobHandler pid env) o w out
  have hhandled : ∀ x, r = x → x ≠ .error .cancelled → Handled d st pid env o w out := by
    rintro x rfl hx
    refine ⟨fun _ _ => hpublish, fun hcancel => ?_⟩
    exact absurd (Option.some.inj (hr.symm.trans hcancel)) hx
  rcases r with (text | _) | a
  · -- an exception, of the store or on the way to it
    refine ⟨⟨hc, hhandled _ rfl (by simp)⟩, ?_⟩
    cases out with
    | ok =>
      have hreply : (jobReply pid env o w).1 = .error (.exception text) := Option.some.inj hr
      have hsame : Outcome.ok.world (jobHandler pid env) o w = w := jobReply_error hreply
      rw [hsame]
      exact hrefused text hreply
    | raised e applied =>
      obtain rfl : e = .exception text := Except.error.inj (Option.some.inj hr)
      exact hraised hB text _ hworld
    | crashed applied => cases hr
  · show (c ∧ Handled d st pid env o w out) ↔ _
    rw [handled_cancelled hr]
    exact and_iff_right hc
  · refine ⟨⟨hc, hhandled _ rfl (by simp)⟩, ?_⟩
    cases out with
    | ok => exact hok a (Option.some.inj hr)
    | raised e applied => cases hr
    | crashed applied => cases hr

private theorem steady_reply {o : JobOp} (ho : Silent o ∨ ∃ channel e, o = .publish channel e)
    {st' : DocStatus} (hw : Steady d st pid st' w) : Steady d st pid st' (jobReply pid env o w).2 := by
  cases hr : (jobReply pid env o w).1 with
  | error e =>
    rw [jobReply_error hr]
    exact hw
  | ok a =>
    obtain ⟨hnow, hnext⟩ := hw
    unfold statusNow at hnow
    constructor
    · unfold statusNow
      rw [jobReply_after hr]
      cases o with
      | commit =>
        show reached d st ((w.executions pid).committed ++ (w.executions pid).pending) = st'
        rw [reached_append, hnow, hnext]
      | _ => exact hnow
    · rw [jobReply_after hr]
      cases o with
      | commit => rfl
      | openSession => rfl
      | rollback => rfl
      | insertChunks rows =>
        show reached d st' ((w.executions pid).pending ++ [.insertChunks rows]) = st'
        rw [reached_append, hnext]
        rfl
      | updateDocument d' u => rcases ho with ho | ⟨channel, e, ho⟩ <;> cases ho
      | _ => exact hnext

/-- A call that has nothing to do with the row of the document. -/
private theorem ends_perform {o : JobOp} (ho : Silent o) (hc : c) {st' : DocStatus}
    (hw : Steady d st pid st' w) : JobEnds d st pid env (fun _ v => Steady d st pid st' v) c (job o) w := by
  refine ends_call hc ?_ (fun _ _ => steady_reply (Or.inl ho) hw) (fun _ _ => hw) ?_
  · rintro channel e rfl
    exact ho.elim
  · rintro - text v (rfl | rfl)
    · exact hw
    · exact steady_reply (Or.inl ho) hw

/-- The other events. -/
private theorem ends_publish {e : StatusEvent} (he : e.status ≠ .parsing) (hc : c) {st' : DocStatus}
    (hw : Steady d st pid st' w) :
    JobEnds d st pid env (fun _ v => Steady d st pid st' v) c (publishStatus d e) w := by
  refine ends_call hc ?_ (fun _ _ => steady_reply (Or.inr ⟨_, e, rfl⟩) hw) (fun _ _ => hw) ?_
  · rintro channel e' he'
    cases he'
    exact he
  · rintro - text v (rfl | rfl)
    · exact hw
    · exact steady_reply (Or.inr ⟨_, e, rfl⟩) hw

/-- Calls that have nothing to do with the row, and the rest of the program. -/
private theorem ends_steady_bind {p : JobProg α} {f : α → JobProg β} {st' : DocStatus}
    (hp : JobEnds d st pid env (fun _ v => Steady d st pid st' v) c p w)
    (hf : ∀ (c : Prop) a v, c → Steady d st pid st' v →
      JobEnds d st pid env (fun _ v => Steady d st pid st' v) c (f a) v) :
    JobEnds d st pid env (fun _ v => Steady d st pid st' v) c (p >>= f) w :=
  ends_bind hp hf fun _ _ hv => hv

private theorem buildPoints_ends (t : IndexTarget) (cs : List Chunk) (vs : List Embedding) (hc : c)
    {st' : DocStatus} (hw : Steady d st pid st' w) :
    JobEnds d st pid env (fun _ v => Steady d st pid st' v) c (buildPoints t cs vs) w := by
  induction cs generalizing c vs w with
  | nil => cases vs <;> exact ⟨hc, hw⟩
  | cons x cs ih =>
    cases vs with
    | nil => exact ⟨hc, hw⟩
    | cons v vs =>
      refine ends_steady_bind (ends_perform (o := .uuid4) trivial hc hw) fun c _ w hc hw => ?_
      refine ends_steady_bind (ends_perform (o := .uuid4) trivial hc hw) fun c _ w hc hw => ?_
      exact ends_steady_bind (ih vs hc hw) fun c _ w hc hw => ⟨hc, hw⟩

private theorem upsertAll_ends (bs : List (List Point)) (hc : c) {st' : DocStatus}
    (hw : Steady d st pid st' w) :
    JobEnds d st pid env (fun _ v => Steady d st pid st' v) c (upsertAll bs) w := by
  induction bs generalizing c w with
  | nil => exact ⟨hc, hw⟩
  | cons b bs ih =>
    exact ends_steady_bind (ends_perform (o := .upsert b) trivial hc hw) fun c _ w hc hw => ih hc hw

private theorem indexChunks_ends (cs : List Chunk) (t : IndexTarget) (hc : c) {st' : DocStatus}
    (hw : Steady d st pid st' w) :
    JobEnds d st pid env (fun _ v => Steady d st pid st' v) c (indexChunks cs t) w := by
  unfold indexChunks
  by_cases hnil : cs.isEmpty
  · rw [if_pos hnil]
    exact ⟨hc, hw⟩
  · rw [if_neg hnil]
    refine ends_steady_bind (ends_perform (o := .embed _) trivial hc hw) fun c vs w hc hw => ?_
    refine ends_steady_bind (buildPoints_ends t cs vs hc hw) fun c built w hc hw => ?_
    exact ends_steady_bind (upsertAll_ends _ hc hw) fun c _ w hc hw => ⟨hc, hw⟩

/-! ### Sessions -/

/-- In a session whose transaction has these statements so far. -/
structure InTx (d : Uuid) (st : DocStatus) (pid : Nat) (st' : DocStatus) (s : Stores) (sts : List Stmt)
    (w : JobWorld) : Prop where
  now : statusNow d st pid w = st'
  pending : (w.executions pid).pending = sts
  stores : w.stores = s

/-- An UPDATE is accepted. -/
private theorem update_ends {st' : DocStatus} {s : Stores} (u : StatusUpdate) (hc : c)
    (hw : InTx d st pid st' s [] w) :
    JobEnds d st pid env (fun r v => r = .ok () ∧ InTx d st pid st' s [.updateDocument d u] v) c
      (job (.updateDocument d u)) w := by
  have haccepted : (s.applyAll ([] ++ [.updateDocument d u])).isSome := rfl
  obtain ⟨hreply, hstores, hpending⟩ := statement_accepted hw.stores hw.pending haccepted
  refine ends_call hc (fun _ _ h => nomatch h) (fun a _ => ⟨rfl, ?_, hpending, hstores⟩)
    (fun text h => ?_) fun h => nomatch h
  · rw [statusNow, committed_jobReply, if_neg fun h => nomatch h.1]
    exact hw.now
  · cases hreply.symm.trans h

/-- What comes of a commit. -/
def Committed (pid : Nat) (v : JobWorld) : Except JobErr Unit → JobWorld → Prop
  | .ok _, v' =>
    (v.stores.applyAll (v.executions pid).pending).isSome ∧ v'.executions pid = { v.executions pid with
      pending := [], committed := (v.executions pid).committed ++ (v.executions pid).pending }
  | .error (.exception text), v' =>
    text = "IntegrityError" ∧ v.stores.applyAll (v.executions pid).pending = none ∧ v' = v
  | .error .cancelled, _ => False

private theorem commit_ends (hc : c) : JobEnds d st pid env (Committed pid w) c (job .commit) w := by
  cases happ : w.stores.applyAll (w.executions pid).pending with
  | none =>
    have hrefused := @commit_refused pid env w happ
    refine ends_call hc (fun _ _ h => nomatch h) (fun a h => ?_) (fun text h => ?_) fun h => nomatch h
    · rw [hrefused] at h
      cases h
    · rw [hrefused] at h
      cases h
      exact ⟨rfl, happ, rfl⟩
  | some t =>
    obtain ⟨hreply, -, hrecord⟩ := @commit_accepted pid env t w happ
    refine ends_call hc (fun _ _ h => nomatch h) (fun a _ => ⟨by rw [happ]; rfl, hrecord⟩)
      (fun text h => ?_) fun h => nomatch h
    cases hreply.symm.trans h

/-- A session, from what its block leaves. -/
private theorem scope_ends {body : JobProg α} {N M : Except JobErr α → JobWorld → Prop} (hc : c)
    (hbody : ∀ (c : Prop) v, c → InTx d st pid (statusNow d st pid w) w.stores [] v →
      JobEnds d st pid env N c body v)
    (hcommit : ∀ a v v', N (.ok a) v → (v.stores.applyAll (v.executions pid).pending).isSome →
      v'.executions pid = { v.executions pid with
        pending := [], committed := (v.executions pid).committed ++ (v.executions pid).pending } →
          M (.ok a) v')
    (hrefused : ∀ a v v', N (.ok a) v → v.stores.applyAll (v.executions pid).pending = none →
      v'.executions pid = { v.executions pid with pending := [] } →
      M (.error (.exception "IntegrityError")) v')
    (hexc : ∀ text v v', N (.error (.exception text)) v → v'.executions pid =
      { v.executions pid with pending := [] } →
      M (.error (.exception text)) v') : JobEnds d st pid env M c (sessionScope body) w := by
  have hrollback : ∀ (c : Prop) text v, c →
      (∀ v' : JobWorld, v'.executions pid = { v.executions pid with pending := [] } →
        M (.error (.exception text)) v') →
      JobEnds d st pid env M c (job .rollback >>= fun _ => (throw (.exception text) : JobProg α)) v := by
    intro c text v hc hM
    refine ends_bind (M := fun r v' => r = .ok () ∧ v'.executions pid =
      { v.executions pid with pending := [] }) ?_ ?_ ?_
    · refine ends_call hc (fun _ _ h => nomatch h) (fun _ h => ⟨rfl, ?_⟩) (fun _ h => nomatch h) fun h =>
        nomatch h
      exact jobReply_after h
    · rintro c - v' hc ⟨-, hv'⟩
      exact ⟨hc, hM v' hv'⟩
    · rintro text v' ⟨h, -⟩
      cases h
  refine ends_bind (M := fun r v => r = .ok () ∧ InTx d st pid (statusNow d st pid w) w.stores [] v) ?_ ?_ ?_
  · refine ends_call hc (fun _ _ h => nomatch h) (fun _ h => ⟨rfl, ?_⟩) (fun _ h => nomatch h) fun h =>
      nomatch h
    have hrecord := jobReply_after h
    refine ⟨?_, ?_, rfl⟩
    · rw [statusNow, hrecord]
      rfl
    · rw [hrecord]
      rfl
  · rintro c - v hc ⟨-, hv⟩
    refine judged_handle (judged_bind ((hbody c v hc hv).mono fun c r v hr => ?_))
    -- the block fails, is cancelled, or comes to the commit
    rcases r with (text | _) | a
    · exact hrollback c text v hr.1 fun v' hv' => hexc text v v' hr.2 hv'
    · exact hr
    · refine judged_bind ((commit_ends hr.1).mono fun c r v' hr' => ?_)
      rcases r with (text | _) | u
      · obtain ⟨rfl, hnone, rfl⟩ := hr'.2
        exact hrollback c _ v' hr'.1 fun v'' hv'' => hrefused a v' v'' hr.2 hnone hv''
      · exact hr'
      · exact ⟨hr'.1, hcommit a v v' hr.2 hr'.2.1 hr'.2.2⟩
  · rintro text v ⟨h, -⟩
    cases h

/-- `set_status` in a session of its own. -/
private theorem progress_ends {st' : DocStatus} (hst : st' ≠ .indexed) (error : Option String)
    (nChunks : Option Nat) (markdownKey : Option String) (hc : c) :
    JobEnds d st pid env (fun r v => r = .ok () ∧ Steady d st pid st' v) c
      (sessionScope (setStatus d st' error nChunks markdownKey)) w := by
  refine scope_ends (N := fun r v => r = .ok () ∧
    InTx d st pid (statusNow d st pid w) w.stores
      [.updateDocument d ⟨st', error, nChunks, markdownKey, none⟩] v) hc ?_ ?_ ?_ ?_
  · intro c v hc hv
    rw [setStatus, if_neg hst]
    exact update_ends _ hc hv
  · rintro - v v' ⟨-, hv⟩ - hrecord
    refine ⟨rfl, ?_, ?_⟩
    · rw [statusNow, hrecord]
      show reached d st ((v.executions pid).committed ++ (v.executions pid).pending) = st'
      rw [hv.pending, reached_append]
      exact if_pos rfl
    · rw [hrecord]
      rfl
  · rintro - v v' ⟨-, hv⟩ hnone -
    rw [hv.pending] at hnone
    cases hnone
  · rintro text v v' ⟨h, -⟩
    cases h

/-- What is said of the values that a program returns. -/
def IfOk (K : JobWorld → Prop) (r : Except JobErr α) (v : JobWorld) : Prop := ∀ a, r = .ok a → K v

private theorem ifOk_error {K : JobWorld → Prop} (e : JobErr) (v : JobWorld) :
    IfOk K (.error e : Except JobErr α) v := by
  intro a h
  cases h

private theorem ifOk_ok {K : JobWorld → Prop} (a : α) {v : JobWorld} (h : K v) :
    IfOk K (.ok a) v := fun _ _ => h

private theorem ends_ifOk_bind {M : Except JobErr α → JobWorld → Prop} {K : JobWorld → Prop} {p : JobProg α}
    {f : α → JobProg β} (hp : JobEnds d st pid env M c p w)
    (hf : ∀ (c : Prop) a v, c → M (.ok a) v → JobEnds d st pid env (IfOk K) c (f a) v) :
    JobEnds d st pid env (IfOk K) c (p >>= f) w :=
  ends_bind hp hf fun _ v _ => ifOk_error _ v

private theorem chunkStage_ends (doc : Document) (hc : c) {st' : DocStatus} (hw : Steady d st pid st' w) :
    JobEnds d st pid env (IfOk (Steady d st pid .chunking)) c (chunkStage lib d doc) w := by
  refine ends_ifOk_bind (ends_perform (o := .getObject _) trivial hc hw) fun c data w hc hw => ?_
  refine ends_ifOk_bind (ends_perform (o := .parseFile ..) trivial hc hw) fun c parsed w hc hw => ?_
  refine ends_ifOk_bind (ends_perform (o := .putObject ..) trivial hc hw) fun c _ w hc hw => ?_
  refine ends_ifOk_bind (progress_ends (by decide) none none _ hc) fun c _ w hc hw => ?_
  refine ends_ifOk_bind (ends_publish (by intro h; cases h) hc hw.2) fun c _ w hc hw => ?_
  show JobEnds d st pid env (IfOk (Steady d st pid .chunking)) c
    (if (chunksOf lib parsed).isEmpty then throw (.exception _)
    else pure (chunksOf lib parsed) : JobProg (List Chunk)) w
  by_cases hnil : (chunksOf lib parsed).isEmpty
  · rw [if_pos hnil]
    exact ⟨hc, ifOk_error _ w⟩
  · rw [if_neg hnil]
    exact ⟨hc, ifOk_ok _ hw⟩

/-- The last session sets `indexed`, if it does anything. -/
private theorem finalScope_ends (rows : List DocumentChunk) (hc : c) :
    JobEnds d st pid env (IfOk (Steady d st pid .indexed)) c (sessionScope do
      bulkInsertChunks rows
      setStatus d .indexed none (some rows.length) none) w := by
  refine scope_ends (N := IfOk fun v =>
    reached d st ((v.executions pid).committed ++ (v.executions pid).pending) = .indexed)
    hc ?_ ?_ (fun _ _ v' _ _ _ => ifOk_error _ v') fun _ _ v' _ _ => ifOk_error _ v'
  · intro c v hc hv
    have hsteady : Steady d st pid (statusNow d st pid w) v := ⟨hv.now, by rw [hv.pending]; rfl⟩
    refine ends_ifOk_bind (ends_perform (o := .insertChunks rows) trivial hc hsteady) fun c _ v hc hv =>
      ?_
    refine ends_ifOk_bind (ends_perform (o := .now) trivial hc hv) fun c clock v hc hv => ?_
    refine ends_call hc (fun _ _ h => nomatch h) (fun a h => ?_) (fun _ _ => ifOk_error _ v) fun h =>
      nomatch h
    refine ifOk_ok _ ?_
    rw [jobReply_after h]
    show reached d st ((v.executions pid).committed ++
      ((v.executions pid).pending ++ [.updateDocument d _])) = .indexed
    rw [reached_append, reached_append]
    exact if_pos rfl
  · intro a v v' hv _ hrecord
    refine ifOk_ok _ ⟨?_, ?_⟩
    · rw [statusNow, hrecord]
      exact hv a rfl
    · rw [hrecord]
      rfl

private theorem indexStage_ends (doc : Document) (cs : List Chunk) (hc : c) :
    JobEnds d st pid env (IfOk (Steady d st pid .indexed)) c (indexStage d doc cs) w := by
  refine ends_ifOk_bind (progress_ends (by decide) none none none hc) fun c _ w hc hw => ?_
  refine ends_ifOk_bind (ends_publish (by intro h; cases h) hc hw.2) fun c _ w hc hw => ?_
  refine ends_ifOk_bind (ends_perform (o := .deletePoints _) trivial hc hw) fun c _ w hc hw => ?_
  refine ends_ifOk_bind (indexChunks_ends cs _ hc hw) fun c rows w hc hw => ?_
  refine ends_ifOk_bind (finalScope_ends rows hc) fun c u w hc hw => ?_
  exact ends_ifOk_bind (ends_publish (by intro h; cases h) hc (hw u rfl)) fun c _ w hc hw =>
    ⟨hc, ifOk_ok _ hw⟩

private theorem failJob_ends (text : String) (hc : c) :
    JobEnds d st pid env (fun _ v => Steady d st pid .failed v) c (failJob d text) w := by
  refine ends_bind (progress_ends (by decide) _ none none hc) (fun c _ w hc hw => ?_) fun _ _ h =>
    nomatch h.1
  exact ends_bind (ends_publish (by intro h; cases h) hc hw.2) (fun c _ w hc hw => ⟨hc, hw⟩) fun _ _ hw =>
    hw

/-- What the block of the first session leaves. -/
def Begun (d : Uuid) (st : DocStatus) (pid : Nat) (s : Stores) :
    Except JobErr (JobResult ⊕ Document) → JobWorld → Prop
  | .ok (.inl _), v => InTx d st pid st s [] v ∧ st.isFinal
  | .ok (.inr _), v => InTx d st pid st s [.updateDocument d ⟨.parsing, none, none, none, none⟩] v
  | .error _, _ => False

/-- What the first session leaves. -/
def Checked (d : Uuid) (st : DocStatus) (pid : Nat) : Except JobErr (JobResult ⊕ Document) → JobWorld → Prop
  | .ok (.inl _), v => (statusNow d st pid v).isFinal
  | .ok (.inr _), v => Steady d st pid .parsing v
  | .error _, _ => False

private theorem beginBody_ends {s : Stores} (hs : HasStatus d st s) (hc : c) (hw : InTx d st pid st s [] w) :
    JobEnds d st pid env (Begun d st pid s) c (beginBody d) w := by
  obtain ⟨doc, hdoc, hid, hst⟩ := hs
  have hfind : w.stores.documents.rows.find? (fun r => r.key = d) = some doc := by
    rw [hw.stores, ← hid]
    exact s.documents.find?_key hdoc
  refine ends_bind (M := fun r v => r = .ok (some doc) ∧ InTx d st pid st s [] v) ?_ ?_ fun _ _ h =>
    nomatch h.1
  · refine ends_call hc (fun _ _ h => nomatch h) (fun row h => ?_) (fun _ h => nomatch h) fun h =>
      nomatch h
    have hrecord := jobReply_after h
    refine ⟨congrArg _ ((Except.ok.inj h).symm.trans hfind), ?_, ?_, hw.stores⟩
    · rw [statusNow, hrecord]
      exact hw.now
    · rw [hrecord]
      exact hw.pending
  · rintro c row v hc ⟨hrow, hv⟩
    cases hrow
    show JobEnds d st pid env (Begun d st pid s) c (if doc.status = .indexed then pure (.inl .alreadyIndexed)
      else setStatus d .parsing none none none >>= fun _ => pure (.inr doc)) v
    by_cases hindexed : doc.status = .indexed
    · rw [if_pos hindexed]
      refine ⟨hc, hv, ?_⟩
      rw [← hst, hindexed]
      rfl
    · rw [if_neg hindexed]
      exact ends_bind (update_ends _ hc hv) (fun c _ v hc hv => ⟨hc, hv.2⟩) fun _ _ h => nomatch h.1

private theorem beginJob_ends (hs : HasStatus d st w.stores) (hnow : statusNow d st pid w = st) (hc : c) :
    JobEnds d st pid env (Checked d st pid) c (beginJob d) w := by
  refine scope_ends (N := Begun d st pid w.stores) hc ?_ ?_ ?_ fun _ _ _ h => h.elim
  · intro c v hc hv
    rw [hnow] at hv
    exact beginBody_ends hs hc hv
  · intro x v v' hv _ hrecord
    have hstatus : statusNow d st pid v' = reached d (statusNow d st pid v) (v.executions pid).pending := by
      rw [statusNow, hrecord]
      exact reached_append ..
    cases x with
    | inl r =>
      obtain ⟨hv, hfinal⟩ := hv
      show (statusNow d st pid v').isFinal
      rw [hstatus, hv.pending, hv.now]
      exact hfinal
    | inr doc =>
      refine ⟨?_, ?_⟩
      · rw [hstatus, hv.pending]
        exact if_pos rfl
      · rw [hrecord]
        rfl
  · intro x v v' hv hnone _
    cases x with
    | inl r =>
      rw [hv.1.pending] at hnone
      cases hnone
    | inr doc =>
      rw [hv.pending] at hnone
      cases hnone

/-- The status at the end is final exactly if all has been handled. -/
def FinalIff (d : Uuid) (st : DocStatus) (pid : Nat) (c : Prop) (_ : Except JobErr α) (v : JobWorld) : Prop :=
  (statusNow d st pid v).isFinal ↔ c

private theorem finalIff_of_out {M : Except JobErr α → JobWorld → Prop}
    (hM : ∀ r v, M r v → (statusNow d st pid v).isFinal) {r : Except JobErr α}
    {v : JobWorld} (h : Out d st pid M c r v) : FinalIff d st pid c r v := by
  rcases r with (text | _) | a
  · exact iff_of_true (hM _ v h.2) h.1
  · exact Iff.symm h
  · exact iff_of_true (hM _ v h.2) h.1

/-- The `try` statement. -/
private theorem tryStages_ends (doc : Document) (hc : c) {st' : DocStatus} (hw : Steady d st pid st' w) :
    JobEnds d st pid env (fun _ v => (statusNow d st pid v).isFinal) c
      (exceptException (do
        let chunks ← chunkStage lib d doc
        indexStage d doc chunks) (failJob d)) w := by
  have hstages := ends_ifOk_bind (@chunkStage_ends d st pid env lib c w doc hc st' hw) fun c cs v hc _ =>
    @indexStage_ends d st pid env c v doc cs hc
  refine judged_handle (hstages.mono fun c r v hr => ?_)
  rcases r with (text | _) | a
  · refine ends_mono (failJob_ends text hr.1) fun _ v hv => ?_
    rw [hv.now]
    rfl
  · exact hr
  · refine ⟨hr.1, ?_⟩
    show (statusNow d st pid v).isFinal
    rw [(hr.2 a rfl).now]
    rfl

/-- An execution on a document with the status `st`. -/
private theorem processDocument_ends (hs : HasStatus d st w.stores) (hnow : statusNow d st pid w = st)
    (hc : c) :
    (processDocument lib d).Judged (jobHandler pid env) WithPostgres (Handled d st pid env)
      (FinalIff d st pid) c w := by
  refine judged_bind ((beginJob_ends hs hnow hc).mono fun c r v hr => ?_)
  rcases r with (text | _) | (r | doc)
  · exact hr.2.elim
  · exact Iff.symm hr
  · exact iff_of_true hr.2 hr.1
  · obtain ⟨hc, hsteady⟩ := hr
    intro out hB r hr
    rcases r with (text | _) | u
    · -- the event `parsing` raises, and the status stays `parsing`
      refine iff_of_false ?_ ?_
      · have hv :=
          Outcome.world_eq (jobHandler pid env)
          (.publish ("doc:" ++ toString d ++ ":events") ⟨.parsing, none, none⟩) v out
        have hstatus : statusNow d st pid (out.world (jobHandler pid env)
            (.publish ("doc:" ++ toString d ++ ":events") ⟨.parsing, none, none⟩) v) = .parsing := by
          rcases hv with hv | hv
          · rw [hv]
            exact hsteady.now
          · rw [hv]
            exact (steady_reply (Or.inr ⟨_, _, rfl⟩) hsteady).now
        rw [hstatus]
        decide
      · rintro ⟨-, hhandled, -⟩
        exact hhandled text hr _ _ rfl rfl
    · refine Iff.symm ?_
      rw [handled_cancelled hr]
      exact and_iff_right hc
    · have hsteady' : Steady d st pid .parsing
        (jobReply pid env (.publish ("doc:" ++ toString d ++ ":events") ⟨.parsing, none, none⟩) v).2 :=
        steady_reply (Or.inr ⟨_, _, rfl⟩) hsteady
      cases out with
      | ok =>
        have hhandled : Handled d st pid env
            (.publish ("doc:" ++ toString d ++ ":events") ⟨.parsing, none, none⟩) v .ok := by
          refine ⟨fun text h => ?_, fun h => ?_⟩
          · cases hr.symm.trans h
          · cases hr.symm.trans h
        exact (tryStages_ends doc ⟨hc, hhandled⟩ hsteady').mono fun c r v =>
          finalIff_of_out fun _ _ h => h
      | raised e applied => cases hr
      | crashed applied => cases hr

end JobEnds

/-- An execution on an existing document, with Postgres there, comes to an end, and leaves the document
`indexed` or `failed` exactly if all that happens is handled. -/
theorem leftFinal_iff (lib : ChunkerLib) (d : Uuid) (st : DocStatus) (pid : Nat) (env : JobReplies)
    {w : JobWorld} (hs : HasStatus d st w.stores) {outs : List (Outcome JobErr)}
    (hB : (processDocument lib d).Legal (jobHandler pid env) WithPostgres outs (w.begin pid)) :
    (∃ r, ((processDocument lib d).run (jobHandler pid env) outs (w.begin pid)).1 = some r) ∧
      (LeftFinal d ((processDocument lib d).run (jobHandler pid env) outs (w.begin pid)).2.stores ↔
        (processDocument lib d).Passes (jobHandler pid env) (Handled d st pid env) outs (w.begin pid)) := by
  have hrecord : ((w.begin pid).executions pid) = Execution.start := by simp [JobWorld.begin]
  have hnow : statusNow d st pid (w.begin pid) = st := by
    rw [statusNow, hrecord]
    rfl
  have hright : RecordRight d st pid (w.begin pid) := by
    unfold RecordRight
    rw [hrecord]
    exact hs
  obtain ⟨r, hr⟩ := exists_result (fun _ _ h => h) hB
  refine ⟨⟨r, hr⟩, ?_⟩
  have hjudged := @processDocument_ends d st pid env lib True (w.begin pid) hs hnow trivial
  have hfinal := judged_run hjudged hB hr
  rw [leftFinal_iff_isFinal (recordRight_run (processDocument lib d) outs hright)]
  exact hfinal.trans (Iff.of_eq (true_and _))

/-! ### Two executions that are given up -/

instance : (o : JobOp) → (out : Outcome JobErr) → Decidable (WithPostgres o out)
  | _, .ok => isTrue trivial
  | o, .raised (.exception _) _ => inferInstanceAs (Decidable (o.isRemote = true))
  | o, .raised .cancelled _ => inferInstanceAs (Decidable (o ≠ .now ∧ o ≠ .uuid4))
  | _, .crashed _ => isFalse id

/-- Redis refuses the first event. -/
def eventRefused : List (Outcome JobErr) :=
  List.replicate 4 .ok ++ [.raised (.exception "ConnectionError") false]

/-- The job is cancelled while it waits for the object. -/
def cancelledAtDownload : List (Outcome JobErr) := List.replicate 5 .ok ++ [.raised .cancelled false]

private theorem eventRefused_legal : (processDocument plainChunker 3).Legal
    (jobHandler 0 plainReplies) WithPostgres eventRefused (JobWorld.uploaded.begin 0) := by decide +kernel

private theorem cancelledAtDownload_legal :
    (processDocument plainChunker 3).Legal (jobHandler 0 plainReplies) WithPostgres
    cancelledAtDownload (JobWorld.uploaded.begin 0) := by decide +kernel

private theorem uploaded_pending : HasStatus 3 .pending JobWorld.uploaded.stores :=
  ⟨uploadedDocument, List.mem_singleton.mpr rfl, rfl, rfl⟩

theorem leftFinal_iff_eventRefused :
    HasStatus 3 .pending JobWorld.uploaded.stores ∧
    (∃ r, ((processDocument plainChunker 3).run (jobHandler 0 plainReplies) eventRefused
      (JobWorld.uploaded.begin 0)).1 = some r) ∧
    (LeftFinal 3 ((processDocument plainChunker 3).run (jobHandler 0 plainReplies) eventRefused
      (JobWorld.uploaded.begin 0)).2.stores ↔
      (processDocument plainChunker 3).Passes (jobHandler 0 plainReplies)
        (Handled 3 .pending 0 plainReplies) eventRefused (JobWorld.uploaded.begin 0)) :=
  ⟨uploaded_pending, leftFinal_iff plainChunker 3 .pending 0 plainReplies uploaded_pending eventRefused_legal⟩

/-- The documents and their statuses after an execution. -/
def statusesLeft (outs : List (Outcome JobErr)) : List (Uuid × DocStatus) :=
  ((processDocument plainChunker 3).run (jobHandler 0 plainReplies) outs
    (JobWorld.uploaded.begin 0)).2.stores.documents.rows.map fun doc => (doc.id, doc.status)

private theorem not_leftFinal {outs : List (Outcome JobErr)} {st : DocStatus}
    (h : statusesLeft outs = [(3, st)]) (hst : st.isFinal = false) :
    ¬ LeftFinal 3 ((processDocument plainChunker 3).run (jobHandler 0 plainReplies) outs
      (JobWorld.uploaded.begin 0)).2.stores := by
  rintro ⟨st', hstatus, hfinal⟩
  have hmem : (3, st') ∈ statusesLeft outs := hasStatus_iff.mp hstatus
  rw [h, List.mem_singleton] at hmem
  cases hmem
  rw [hst] at hfinal
  cases hfinal

/-- Both leave the document in the status `parsing`. -/
theorem left_parsing :
    statusesLeft eventRefused = [(3, .parsing)] ∧
    statusesLeft cancelledAtDownload = [(3, .parsing)] ∧
    ∀ outs ∈ [eventRefused, cancelledAtDownload],
      ¬ ((processDocument plainChunker 3).Legal (jobHandler 0 plainReplies) WithPostgres outs
        (JobWorld.uploaded.begin 0) →
        LeftFinal 3 ((processDocument plainChunker 3).run (jobHandler 0 plainReplies) outs
          (JobWorld.uploaded.begin 0)).2.stores) := by
  have hrefused : statusesLeft eventRefused = [(3, .parsing)] := by decide +kernel
  have hcancelled : statusesLeft cancelledAtDownload = [(3, .parsing)] := by decide +kernel
  refine ⟨hrefused, hcancelled, ?_⟩
  rw [List.forall_mem_cons, List.forall_mem_singleton]
  constructor
  · intro h
    exact not_leftFinal hrefused rfl (h eventRefused_legal)
  · intro h
    exact not_leftFinal hcancelled rfl (h cancelledAtDownload_legal)

end LegalRag
