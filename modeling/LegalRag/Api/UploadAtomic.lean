import LegalRag.Api.World
import LegalRag.Calls.Crash

/-!
# What an upload leaves behind

An upload commits the rows of all its new documents at once, and then enqueues their jobs one by one.  Up
to the commit a failure leaves the tables and the queues as they were (`Untouched`); after it the rows
stay, and the jobs that have been enqueued are those of the first documents (`Ingesting`).
-/

namespace LegalRag

open Calls Prog

/-- The queue of the pool that a request gets. -/
def ApiWorld.queueName (w : ApiWorld) : String := (w.arqPool.getD createPool).defaultQueueName

/-- The documents and the queues are as they were. -/
def Untouched (w v : ApiWorld) : Prop := v.documents = w.documents ∧ v.broker.queues = w.broker.queues

/-- What the job of a document is. -/
def Job.Ingests (j : Job) (d : Document) : Prop := j.function = "process_document" ∧ j.arg = toString d.id

/-- The documents `new` have come in, and the jobs of the first `k` of them. -/
structure Ingesting (w v : ApiWorld) (new : List Document) (k : Nat) : Prop where
  documents : v.documents = w.documents ++ new
  ids : (new.map Document.id).Nodup
  jobs : ∃ jobs, List.Forall₂ Job.Ingests jobs (new.take k) ∧
    v.broker.queues = Function.update w.broker.queues w.queueName (w.broker.queues w.queueName ++ jobs)

/-- Every new document has its job. -/
def Ingested (w v : ApiWorld) : Prop := ∃ new, Ingesting w v new new.length

/-- Enqueueing does not fail, and neither does a commit that takes effect. -/
def SafeUpload : ApiOp → Outcome ApiErr → Prop
  | .enqueueJob .., out => out = .ok
  | .commit _, .raised _ applied => applied = false
  | _, _ => True

/-- The outcomes that are allowed: all of them, or the safe ones. -/
def UploadOutcome (safe : Bool) (o : ApiOp) (out : Outcome ApiErr) : Prop :=
  safe = true → SafeUpload o out

/-- What the loop over the files has done: the documents `new` wait for the commit. -/
structure Pending (rid : Nat) (w v : ApiWorld) (new : List Document) : Prop where
  untouched : Untouched w v
  session : (v.sessions rid .request).newDocuments = new
  pool : v.arqPool = some ⟨w.queueName⟩
  ids : (new.map Document.id).Nodup
  fresh : ∀ d ∈ new, d.id < v.nextUuid

section Upload

variable {rid : Nat} {agent : AgentReplies} {safe : Bool} {w : ApiWorld}

/-- How the request goes on. -/
abbrev UploadAlways {α : Type} (rid : Nat) (agent : AgentReplies) (safe : Bool)
    (post : Except ApiErr α → ApiWorld → Prop) (p : Api α) (v : ApiWorld) : Prop :=
  p.Always (apiHandler rid agent) (UploadOutcome safe) (fun _ => True) post v

theorem Pending.frame {v v' : ApiWorld} {new : List Document} (h : Pending rid w v new)
    (hd : v'.documents = v.documents) (hb : v'.broker = v.broker)
    (hs : (v'.sessions rid .request).newDocuments = (v.sessions rid .request).newDocuments)
    (hp : v'.arqPool = v.arqPool) (hn : v.nextUuid ≤ v'.nextUuid) : Pending rid w v' new where
  untouched := ⟨hd.trans h.untouched.1, by rw [hb, h.untouched.2]⟩
  session := hs.trans h.session
  pool := hp.trans h.pool
  ids := h.ids
  fresh d hd' := Nat.lt_of_lt_of_le (h.fresh d hd') hn

theorem newDocuments_touch (rid : Nat) (ref : SessionRef) (v : ApiWorld) :
    ((v.touch rid ref).sessions rid .request).newDocuments = (v.sessions rid .request).newDocuments := by
  cases ref with
  | request => simp [ApiWorld.touch, ApiWorld.setSession]
  | scope => simp [ApiWorld.touch, ApiWorld.setSession]

/-- A call after whose failure the request is over. -/
private theorem upload_step {α : Type} {o : ApiOp} {f : o.Resp → Api α}
    {post : Except ApiErr α → ApiWorld → Prop} {v : ApiWorld} (hv : Untouched w v)
    (hv' : Untouched w (apiHandler rid agent o v).2)
    (hok : ∀ a, (apiHandler rid agent o v).1 = .ok a →
      UploadAlways rid agent safe post (f a) (apiHandler rid agent o v).2)
    (herr : ∀ e v', Untouched w v' → post (.error e) v') :
    UploadAlways rid agent safe post (api o >>= f) v := by
  rw [perform_bind]
  refine always_call trivial trivial ?_ ?_
  · cases hr : (apiHandler rid agent o v).1 with
    | ok a => exact hok a hr
    | error e => exact always_done trivial (herr e _ hv')
  · rintro e v' (rfl | rfl)
    · exact always_done trivial (herr e _ hv)
    · exact always_done trivial (herr e _ hv')

/-- A call that leaves the documents, the queues and the session's documents alone. -/
private theorem pending_step {α : Type} {o : ApiOp} {f : o.Resp → Api α}
    {post : Except ApiErr α → ApiWorld → Prop} {v : ApiWorld} {new : List Document}
    (h : Pending rid w v new) (h' : Pending rid w (apiHandler rid agent o v).2 new)
    (hok : ∀ a v', Pending rid w v' new → UploadAlways rid agent safe post (f a) v')
    (herr : ∀ e v', Untouched w v' → post (.error e) v') : UploadAlways rid agent safe post (api o >>= f) v :=
  upload_step h.untouched h'.untouched (fun a _ => hok a _ h') herr

/-! ### The loop over the files -/

/-- After one file. -/
def AfterFile (rid : Nat) (w : ApiWorld) (new : List Document) : Except ApiErr (Document × Bool) →
    ApiWorld → Prop
  | .ok (d, isNew), v => Pending rid w v (if isNew then new ++ [d] else new)
  | .error _, v => Untouched w v

/-- After all files. -/
def AfterFiles (rid : Nat) (w : ApiWorld) (new : List Document) :
    Except ApiErr (List Document × List Uuid) → ApiWorld → Prop
  | .ok (_, ids), v => ∃ more, Pending rid w v (new ++ more) ∧ ids = more.map Document.id
  | .error _, v => Untouched w v

/-- The world after the INSERT of a document. -/
def inserted (rid : Nat) (n : NewDocument) (v : ApiWorld) : ApiWorld :=
  { (v.touch rid .request).setSession rid .request (fun s =>
      { s with newDocuments := s.newDocuments ++ [v.documentRow rid .request n] })
      with nextUuid := v.nextUuid + 1 }

theorem createDocument_eq (n : NewDocument) (v : ApiWorld) :
    apiHandler rid agent (.createDocument .request n) v =
    if ApiWorld.clashes n (v.documents ++ (v.sessions rid .request).newDocuments) then
      (.error (.other "uq_doc_checksum_per_tenant"), (v.touch rid .request).tick)
    else (.ok (v.documentRow rid .request n), (inserted rid n v).tick) := by
  show ((apiReply rid agent (.createDocument .request n) v).1,
    (apiReply rid agent (.createDocument .request n) v).2.tick) = _
  rw [apiReply]
  by_cases hclash : ApiWorld.clashes n (v.documents ++ (v.sessions rid .request).newDocuments)
  · rw [if_pos hclash, if_pos hclash]
  · rw [if_neg hclash, if_neg hclash]
    rfl

theorem Pending.inserted {v : ApiWorld} {new : List Document} (h : Pending rid w v new) (n : NewDocument) :
    Pending rid w (inserted rid n v).tick (new ++ [v.documentRow rid .request n]) := by
  have hid : (v.documentRow rid .request n).id = v.nextUuid := rfl
  constructor
  · exact h.untouched
  · simp [LegalRag.inserted, ApiWorld.tick, ApiWorld.touch, ApiWorld.setSession, h.session]
  · exact h.pool
  · rw [List.map_append, List.map_singleton, List.nodup_append]
    refine ⟨h.ids, by simp, ?_⟩
    intro i hi j hj
    obtain ⟨d, hd, rfl⟩ := List.mem_map.mp hi
    rw [List.mem_singleton.mp hj, hid]
    exact Nat.ne_of_lt (h.fresh d hd)
  · intro d hd
    show d.id < v.nextUuid + 1
    rcases List.mem_append.mp hd with hd | hd
    · exact Nat.lt_succ_of_lt (h.fresh d hd)
    · rw [List.mem_singleton.mp hd, hid]
      exact Nat.lt_succ_self _

/-- After the INSERT of a document. -/
def AfterInsert (rid : Nat) (w : ApiWorld) (new : List Document) : Except ApiErr Document → ApiWorld → Prop
  | .ok d, v => Pending rid w v (new ++ [d])
  | .error _, v => Untouched w v

private theorem createDocument_always {v : ApiWorld} {new : List Document} (h : Pending rid w v new)
    (n : NewDocument) :
    UploadAlways rid agent safe (AfterInsert rid w new) (api (.createDocument .request n)) v := by
  have heq := @createDocument_eq rid agent n v
  by_cases hclash : ApiWorld.clashes n (v.documents ++ (v.sessions rid .request).newDocuments)
  · rw [if_pos hclash] at heq
    refine always_call trivial trivial ?_ ?_
    · rw [heq]
      exact always_done trivial h.untouched
    · rw [heq]
      rintro e v' (rfl | rfl)
      · exact always_done trivial h.untouched
      · exact always_done trivial h.untouched
  · rw [if_neg hclash] at heq
    refine always_call trivial trivial ?_ ?_
    · rw [heq]
      exact always_done trivial (h.inserted n)
    · rw [heq]
      rintro e v' (rfl | rfl)
      · exact always_done trivial h.untouched
      · exact always_done trivial (h.inserted n).untouched

private theorem uploadFile_always (sha256 : List UInt8 → String) (s : UploadSettings) (c : UploadCall)
    (up : UploadFile) {v : ApiWorld} {new : List Document} (h : Pending rid w v new) :
    UploadAlways rid agent safe (AfterFile rid w new) (uploadFile sha256 s c up) v := by
  have herr : ∀ e v', Untouched w v' → AfterFile rid w new (.error e) v' := fun _ _ hv => hv
  have htouch : ∀ {v : ApiWorld} {new : List Document}, Pending rid w v new →
      Pending rid w (v.touch rid .request).tick new := fun hv =>
    hv.frame rfl rfl (newDocuments_touch rid .request _) rfl (Nat.le_refl _)
  unfold uploadFile
  cases checkFile s up with
  | error e => exact always_done trivial h.untouched
  | ok mime =>
    refine pending_step h (htouch h) ?_ herr
    intro found v₁ h₁
    cases found with
    | some existing => exact always_done trivial h₁
    | none =>
      refine pending_step h₁ (h₁.frame rfl rfl rfl rfl (Nat.le_succ _)) ?_ herr
      intro docId v₂ h₂
      refine pending_step h₂ (h₂.frame rfl rfl rfl rfl (Nat.le_refl _)) ?_ herr
      intro _ v₃ h₃
      refine always_bind ((createDocument_always h₃ _).mono fun r v₄ _ h₄ => ?_)
      cases r with
      | error e => exact always_done trivial h₄
      | ok d =>
        refine pending_step h₄ (htouch h₄) ?_ herr
        intro _ v₅ h₅
        exact always_done trivial h₅

private theorem uploadAll_always (sha256 : List UInt8 → String) (s : UploadSettings) (c : UploadCall)
    (ups : List UploadFile) {v : ApiWorld} {new : List Document} (h : Pending rid w v new) :
    UploadAlways rid agent safe (AfterFiles rid w new) (uploadAll sha256 s c ups) v := by
  induction ups generalizing v new with
  | nil => exact always_done trivial ⟨[], by rwa [List.append_nil], rfl⟩
  | cons up ups ih =>
    unfold uploadAll
    refine always_bind ((uploadFile_always sha256 s c up h).mono fun r v₁ _ h₁ => ?_)
    rcases r with e | ⟨d, isNew⟩
    · exact always_done trivial h₁
    · refine always_bind ((ih h₁).mono fun r v₂ _ h₂ => ?_)
      rcases r with e | ⟨ds, ids⟩
      · exact always_done trivial h₂
      · obtain ⟨more, hmore, rfl⟩ := h₂
        refine always_done trivial ?_
        cases isNew with
        | true => exact ⟨d :: more, by simpa using hmore, rfl⟩
        | false => exact ⟨more, hmore, rfl⟩

/-! ### The jobs -/

/-- How the request ends: every new document with its job, or an error that left nothing; with unsafe
outcomes the error may also have come after the commit. -/
def AfterUpload {α : Type} (safe : Bool) (w : ApiWorld) : Except ApiErr α → ApiWorld → Prop
  | .ok _, v => Ingested w v
  | .error _, v => Untouched w v ∨ safe = false ∧ ∃ new k, Ingesting w v new k

/-- The world after a job has been enqueued. -/
def enqueued (id : Uuid) (w v : ApiWorld) : ApiWorld :=
  { v with
    broker := v.broker.enqueue w.queueName ⟨v.nextUuid, "process_document", toString id⟩
    nextUuid := v.nextUuid + 1 }

theorem enqueueJob_eq {v : ApiWorld} (hpool : v.arqPool = some ⟨w.queueName⟩) (id : Uuid) :
    apiHandler rid agent (.enqueueJob "process_document" (toString id)) v =
      (.ok (some v.nextUuid), (enqueued id w v).tick) := by
  simp only [apiHandler, apiReply]
  split
  · rename_i h
    rw [hpool] at h
    cases h
  · rename_i pool h
    obtain rfl : ⟨w.queueName⟩ = pool := Option.some.inj (hpool.symm.trans h)
    rfl

private theorem Ingesting.enqueued {v : ApiWorld} {new : List Document} {k : Nat} (h : Ingesting w v new k)
    {d : Document} {rest : List Document} (hd : new.drop k = d :: rest) :
    Ingesting w (enqueued d.id w v).tick new (k + 1) := by
  have htake : new.take (k + 1) = new.take k ++ [d] :=
    by rw [List.take_add, hd, List.take_succ_cons, List.take_zero]
  obtain ⟨jobs, hjobs, hqueues⟩ := h.jobs
  refine ⟨h.documents, h.ids, jobs ++ [⟨v.nextUuid, "process_document", toString d.id⟩], ?_, ?_⟩
  · rw [htake]
    exact List.rel_append hjobs (.cons ⟨rfl, rfl⟩ .nil)
  · show Function.update v.broker.queues w.queueName (v.broker.queues w.queueName ++ _) = _
    rw [hqueues, Function.update_self, Function.update_idem, List.append_assoc]

/-- After the commit, and `k` of the jobs. -/
private theorem enqueueAll_always (pending : List Uuid) {v : ApiWorld} {new : List Document} {k : Nat}
    (h : Ingesting w v new k) (hpool : v.arqPool = some ⟨w.queueName⟩)
    (hids : pending = (new.drop k).map Document.id) :
    UploadAlways rid agent safe (AfterUpload safe w) (enqueueAll pending) v := by
  induction pending generalizing v k with
  | nil =>
    have hk : new.length ≤ k := List.drop_eq_nil_iff.mp (List.map_eq_nil_iff.mp hids.symm)
    refine always_done trivial ⟨new, h.documents, h.ids, ?_⟩
    rw [List.take_length]
    obtain ⟨jobs, hjobs, hqueues⟩ := h.jobs
    rw [List.take_of_length_le hk] at hjobs
    exact ⟨jobs, hjobs, hqueues⟩
  | cons id pending ih =>
    obtain ⟨d, rest, hdrop⟩ : ∃ d rest, new.drop k = d :: rest :=
      List.exists_cons_of_ne_nil fun hnil => by rw [hnil] at hids; cases hids
    rw [hdrop, List.map_cons, List.cons.injEq] at hids
    obtain ⟨rfl, hrest⟩ := hids
    have hnext := h.enqueued hdrop
    have heq := @enqueueJob_eq rid agent w v hpool d.id
    unfold enqueueAll
    rw [perform_bind]
    refine always_call_of trivial trivial ?_ ?_
    · intro _
      rw [heq]
      refine always_bind ((ih hnext hpool ?_).mono fun r v' _ hr => ?_)
      · rw [hrest, List.drop_add_one_eq_tail_drop, hdrop, List.tail_cons]
      · cases r with
        | ok jobs => exact always_done trivial hr
        | error e => exact always_done trivial hr
    · intro e applied ha
      have hnotSafe : safe = false := by
        cases safe with
        | false => rfl
        | true => cases ha rfl
      rw [heq]
      refine always_done trivial (Or.inr ⟨hnotSafe, new, ?_⟩)
      cases applied with
      | true => exact ⟨k + 1, hnext⟩
      | false => exact ⟨k, h⟩

/-! ### The request -/

theorem commit_eq {v : ApiWorld} : apiHandler rid agent (.commit .request) v =
    if (v.sessions rid .request).newDocuments.any fun d =>
      ApiWorld.clashes d.toNewDocument v.documents then
      (.error (.other "uq_doc_checksum_per_tenant"), (v.setSession rid .request fun _ => Session.fresh).tick)
    else (.ok (), ((v.applyCommit rid .request).setSession rid .request fun s =>
      { s with begun := none, newMessages := [], newDocuments := [] }).tick) := by
  simp only [apiHandler, apiReply]
  split <;> rfl

/-- The end of the request, once all files are through the loop. -/
def commitAndEnqueue (docs : List Document) (toEnqueue : List Uuid) : Api UploadResponse := do
  api (.commit .request)
  let jobIds ← enqueueAll toEnqueue
  return ⟨docs, jobIds⟩

private theorem commitAndEnqueue_always (docs : List Document) {v : ApiWorld} {new : List Document}
    (h : Pending rid w v new) :
    UploadAlways rid agent safe (AfterUpload safe w) (commitAndEnqueue docs (new.map Document.id)) v := by
  have heq := @commit_eq rid agent v
  unfold commitAndEnqueue
  rw [perform_bind]
  by_cases hclash : (v.sessions rid .request).newDocuments.any fun d =>
    ApiWorld.clashes d.toNewDocument v.documents
  · rw [if_pos hclash] at heq
    refine always_call trivial trivial ?_ ?_
    · rw [heq]
      exact always_done trivial (Or.inl h.untouched)
    · rw [heq]
      rintro e v' (rfl | rfl)
      · exact always_done trivial (Or.inl h.untouched)
      · exact always_done trivial (Or.inl h.untouched)
  · rw [if_neg hclash] at heq
    have hcommitted : Ingesting w (apiHandler rid agent (.commit .request) v).2 new 0 := by
      rw [heq]
      refine ⟨?_, h.ids, [], .nil, ?_⟩
      · show v.documents ++ (v.sessions rid .request).newDocuments = _
        rw [h.untouched.1, h.session]
      · show v.broker.queues = _
        rw [h.untouched.2, List.append_nil, Function.update_eq_self]
    refine always_call_of trivial trivial ?_ ?_
    · intro _
      have hpool : (apiHandler rid agent (.commit .request) v).2.arqPool = some ⟨w.queueName⟩ := by
        rw [heq]
        exact h.pool
      have hreply : (apiHandler rid agent (.commit .request) v).1 = .ok () := by rw [heq]
      rw [hreply]
      refine always_bind ((enqueueAll_always _ hcommitted hpool (by rw [List.drop_zero])).mono
        fun r v' _ hr => ?_)
      cases r with
      | ok jobs => exact always_done trivial hr
      | error e => exact always_done trivial hr
    · intro e applied ha
      cases applied with
      | false => exact always_done trivial (Or.inl h.untouched)
      | true =>
        have hnotSafe : safe = false := by
          cases safe with
          | false => rfl
          | true => cases ha rfl
        exact always_done trivial (Or.inr ⟨hnotSafe, new, 0, hcommitted⟩)

/-- Whatever fails, the request ends as `AfterUpload` says. -/
private theorem uploadFiles_always (sha256 : List UInt8 → String) (s : UploadSettings) (c : UploadCall)
    (w : ApiWorld) :
    UploadAlways rid agent safe (AfterUpload safe w) (uploadFiles sha256 s c) (w.openSessions rid) := by
  have hstart : Untouched w (w.openSessions rid) := ⟨rfl, rfl⟩
  unfold uploadFiles
  by_cases hempty : c.files.isEmpty
  · rw [if_pos hempty]
    exact always_done trivial (Or.inl hstart)
  · rw [if_neg hempty]
    by_cases hmany : c.files.length > s.maxFilesPerRequest
    · rw [if_pos hmany]
      exact always_done trivial (Or.inl hstart)
    · rw [if_neg hmany]
      refine upload_step hstart hstart ?_ (fun e v hv => Or.inl hv)
      intro _ _
      have hloop : Pending rid w (apiHandler rid agent .getArqPool (w.openSessions rid)).2 [] := by
        refine ⟨hstart, ?_, rfl, List.nodup_nil, ?_⟩
        · show (Function.update w.sessions rid (fun _ => Session.fresh) rid .request).newDocuments = []
          rw [Function.update_self]
          rfl
        · rintro d hd
          cases hd
      refine always_bind ((uploadAll_always sha256 s c c.files hloop).mono fun r v _ hr => ?_)
      rcases r with e | ⟨docs, ids⟩
      · exact always_done trivial (Or.inl hr)
      · obtain ⟨new, hnew, rfl⟩ := hr
        exact commitAndEnqueue_always docs hnew

end Upload

/-- The run of a request. -/
abbrev runUpload (rid : Nat) (agent : AgentReplies) (sha256 : List UInt8 → String) (s : UploadSettings)
    (c : UploadCall) (w : ApiWorld) (outs : List (Outcome ApiErr)) :
    Option (Except ApiErr UploadResponse) × ApiWorld :=
  (uploadFiles sha256 s c).run (apiHandler rid agent) outs (w.openSessions rid)

/-- A request that succeeds has enqueued one job for each new document, and one that raises has changed
nothing. -/
def AllOrNothing (w : ApiWorld) (run : Option (Except ApiErr UploadResponse) × ApiWorld) : Prop :=
  (∀ r, run.1 = some (.ok r) → Ingested w run.2) ∧ ∀ e, run.1 = some (.error e) → Untouched w run.2

/-- A request is all or nothing if neither a job's enqueueing fails nor a commit that takes effect.  In
any case one that succeeds has enqueued one job for each new document, and one that raises has changed
nothing, or left all new documents and the jobs of the first of them. -/
theorem upload_outcome (rid : Nat) (agent : AgentReplies) (sha256 : List UInt8 → String)
    (s : UploadSettings) (c : UploadCall) (w : ApiWorld) (outs : List (Outcome ApiErr)) :
    ((uploadFiles sha256 s c).Legal (apiHandler rid agent) SafeUpload outs (w.openSessions rid) →
      AllOrNothing w (runUpload rid agent sha256 s c w outs)) ∧
    (∀ r, (runUpload rid agent sha256 s c w outs).1 = some (.ok r) →
      Ingested w (runUpload rid agent sha256 s c w outs).2) ∧
    ∀ e, (runUpload rid agent sha256 s c w outs).1 = some (.error e) →
      Untouched w (runUpload rid agent sha256 s c w outs).2 ∨
        ∃ new k, Ingesting w (runUpload rid agent sha256 s c w outs).2 new k := by
  have hany := (always_run outs (legal_of_all (fun o out (h : false = true) => by cases h) outs _ _)
    (@uploadFiles_always rid agent false sha256 s c w)).2
  refine ⟨?_, ?_, ?_⟩
  · intro hlegal
    have hlegal' : (uploadFiles sha256 s c).Legal (apiHandler rid agent)
      (UploadOutcome true) outs (w.openSessions rid) :=
      hlegal.mono fun o out h _ => h
    have hsafe := (always_run outs hlegal' (@uploadFiles_always rid agent true sha256 s c w)).2
    refine ⟨fun r hr => hsafe _ hr, ?_⟩
    intro e he
    rcases hsafe _ he with h | ⟨h, -⟩
    · exact h
    · cases h
  · intro r hr
    exact hany _ hr
  · intro e he
    rcases hany _ he with h | ⟨-, h⟩
    · exact Or.inl h
    · exact Or.inr h

/-- One file of one byte. -/
def oneFile : UploadCall := ⟨1, 1, [⟨some "luat.pdf", some "application/pdf", [37]⟩]⟩

def pdfUploads : UploadSettings := ⟨50, 20, ["application/pdf"]⟩

/-- The seven calls up to the commit go well, and the job cannot be enqueued. -/
def enqueueFails : List (Outcome ApiErr) :=
  List.replicate 7 .ok ++ [.raised (.other "ConnectionError") false]

theorem upload_outcome_oneFile :
    (AllOrNothing .blank (runUpload 0 .none (fun _ => "5a") pdfUploads oneFile .blank [])) ∧
    ∃ new k, Ingesting .blank (runUpload 0 .none (fun _ => "5a") pdfUploads oneFile .blank enqueueFails).2
      new k := by
  have hsafe : ∀ o, SafeUpload o .ok := by
    intro o
    cases o <;> trivial
  refine ⟨(upload_outcome 0 .none _ pdfUploads oneFile .blank []).1 (legal_nil hsafe _ _), ?_⟩
  have herr : (runUpload 0 .none (fun _ => "5a") pdfUploads oneFile .blank enqueueFails).1 =
      some (.error (.other "ConnectionError")) := by decide +kernel
  rcases (upload_outcome 0 .none _ pdfUploads oneFile .blank enqueueFails).2.2 _ herr with h | h
  · exact absurd h.1 (by decide +kernel)
  · exact h

/-- The document of a request whose job could not be enqueued stays. -/
theorem not_allOrNothing :
    ¬ ∀ (rid : Nat) (agent : AgentReplies) (sha256 : List UInt8 → String)
      (s : UploadSettings) (c : UploadCall) (w : ApiWorld) (outs : List (Outcome ApiErr)),
      AllOrNothing w (runUpload rid agent sha256 s c w outs) := by
  intro h
  have herr : (runUpload 0 .none (fun _ => "5a") pdfUploads oneFile .blank enqueueFails).1 =
      some (.error (.other "ConnectionError")) := by decide +kernel
  have huntouched := (h 0 .none (fun _ => "5a") pdfUploads oneFile .blank enqueueFails).2 _ herr
  exact absurd huntouched.1 (by decide +kernel)

end LegalRag
