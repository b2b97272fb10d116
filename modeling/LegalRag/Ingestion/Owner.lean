import LegalRag.Calls.Protocol
import LegalRag.Db.Documents
import LegalRag.Ingestion.World
import LegalRag.Lists.Related

/-!
# Whose points a job upserts

A job reads its row once; the points it upserts carry the document, the user and the tenant of that row
(`processDocument_reads`).  Its calls change the status of rows, but add none and take none away
(`jobReply_rows`).
-/

namespace LegalRag

open Calls Prog

/-- The payload refers to the document and to its owner. -/
def Point.Of (p : Point) (d : Document) : Prop :=
  p.docId = toString d.id ∧ p.userId = toString d.userId ∧ p.tenantId = toString d.tenantId

theorem Point.Of.sameAs {p : Point} {d d' : Document} (h : p.Of d) (hd : d.SameAs d') : p.Of d' := by
  unfold Point.Of at h ⊢
  rw [hd.1, hd.userId, hd.tenantId]
  exact h

/-- A job on the document `d` upserts points of the row it has read. -/
def readsRow (d : Uuid) : Protocol JobCalls JobErr (Option Document) where
  allows
    | row, .upsert points => ∃ doc, row = some doc ∧ ∀ p ∈ points, p.Of doc
    | _, .getInternal d' => d' = d
    | _, _ => True
  replies
    | _, .getInternal d', row => ∀ doc, row = some doc → doc.id = d'
    | _, _, _ => True
  next
    | _, .getInternal _, row => row
    | row, _, _ => row
  failed row _ _ := row

/-- The calls after the row has been read. -/
def OfRow (doc : Document) : JobCalls.Op → Prop
  | .upsert points => ∀ p ∈ points, p.Of doc
  | .getInternal _ => False
  | _ => True

/-- A program that makes such calls, whatever the replies. -/
abbrev Upserts (doc : Document) {α : Type} (post : α → Prop) (p : JobProg α) : Prop :=
  p.Follows (fun _ _ => True) (OfRow doc) post

section

variable {d : Uuid} {doc : Document} {lib : ChunkerLib} {α β : Type}

private theorem upserts_bind {p : JobProg α} {f : α → JobProg β} {post : β → Prop}
    (hp : Upserts doc (fun _ => True) p) (hf : ∀ a, Upserts doc post (f a)) : Upserts doc post (p >>= f) :=
  follows_bind (hp.mono fun a _ => hf a)

private theorem upserts_except {p : JobProg α} {h : String → JobProg α} {post : α → Prop}
    (hp : Upserts doc post p)
    (hh : ∀ text, Upserts doc post (h text)) : Upserts doc post (exceptException p h) := by
  refine follows_handle hp fun e => ?_
  cases e with
  | exception text => exact hh text
  | cancelled => trivial

private theorem upserts_call {o : JobCalls.Op} (h : OfRow doc o) : Upserts doc (fun _ => True) (job o) :=
  follows_perform h

private theorem upserts_scope {body : JobProg α} {post : α → Prop} (hbody : Upserts doc post body) :
    Upserts doc post (sessionScope body) := by
  unfold sessionScope
  refine upserts_bind (upserts_call trivial) fun _ =>
    upserts_except (follows_bind (hbody.mono fun a ha => ?_)) ?_
  · exact upserts_bind (upserts_call trivial) fun _ => ha
  · intro text
    exact upserts_bind (upserts_call trivial) fun _ => trivial

private theorem upserts_setStatus (st : DocStatus) (error : Option String) (nChunks : Option Nat)
    (markdownKey : Option String) :
    Upserts doc (fun _ => True) (setStatus d st error nChunks markdownKey) := by
  unfold setStatus
  split
  · exact upserts_bind (upserts_call trivial) fun _ => upserts_call trivial
  · exact upserts_call trivial

private theorem upserts_publish (e : StatusEvent) : Upserts doc (fun _ => True) (publishStatus d e) :=
  upserts_call trivial

private theorem upserts_chunkStage : Upserts doc (fun _ => True) (chunkStage lib d doc) := by
  unfold chunkStage
  refine upserts_bind (upserts_call trivial) fun data => ?_
  refine upserts_bind (upserts_call trivial) fun parsed => ?_
  refine upserts_bind (upserts_call trivial) fun _ => ?_
  refine upserts_bind (upserts_scope (upserts_setStatus _ _ _ _)) fun _ => ?_
  refine upserts_bind (upserts_publish _) fun _ => ?_
  by_cases hnil : (chunksOf lib parsed).isEmpty
  · simp only [hnil, if_true]
    trivial
  · simp only [hnil]
    trivial

/-- The target of the indexer is the row. -/
def IndexTarget.Of (t : IndexTarget) (doc : Document) : Prop :=
  t.docId = doc.id ∧ t.userId = doc.userId ∧ t.tenantId = doc.tenantId

private theorem pointOf_of {t : IndexTarget} (ht : t.Of doc) (pointId : Uuid) (c : Chunk) (v : Embedding) :
    (pointOf t pointId c v).Of doc := by
  unfold Point.Of
  rw [← ht.1, ← ht.2.1, ← ht.2.2]
  exact ⟨rfl, rfl, rfl⟩

private theorem upserts_buildPoints {t : IndexTarget} (ht : t.Of doc) (cs : List Chunk)
    (vs : List Embedding) : Upserts doc (fun built => ∀ x ∈ built, x.1.Of doc) (buildPoints t cs vs) := by
  induction cs generalizing vs with
  | nil =>
    cases vs with
    | nil => intro x hx; cases hx
    | cons v vs => trivial
  | cons c cs ih =>
    cases vs with
    | nil => trivial
    | cons v vs =>
      refine upserts_bind (upserts_call trivial) fun pointId => ?_
      refine upserts_bind (upserts_call trivial) fun rowId => ?_
      refine follows_bind ((ih vs).mono fun rest hrest => ?_)
      intro x hx
      rcases List.mem_cons.mp hx with rfl | hx
      · exact pointOf_of ht _ _ _
      · exact hrest x hx

private theorem upserts_all {bs : List (List Point)} (h : ∀ b ∈ bs, ∀ p ∈ b, p.Of doc) :
    Upserts doc (fun _ => True) (upsertAll bs) := by
  induction bs with
  | nil => trivial
  | cons b bs ih =>
    exact upserts_bind (upserts_call (h b (by simp))) fun _ => ih fun b' hb' => h b' (by simp [hb'])

private theorem upserts_indexChunks {t : IndexTarget} (ht : t.Of doc) (cs : List Chunk) :
    Upserts doc (fun _ => True) (indexChunks cs t) := by
  unfold indexChunks
  split
  · trivial
  · refine upserts_bind (upserts_call trivial) fun vs => ?_
    refine follows_bind ((upserts_buildPoints ht cs vs).mono fun built hbuilt => ?_)
    refine upserts_bind (upserts_all fun b hb p hp => ?_) fun _ => trivial
    obtain ⟨x, hx, rfl⟩ := List.mem_map.mp (Redis.mem_of_mem_slices hb hp)
    exact hbuilt x hx

private theorem upserts_indexStage (hd : doc.id = d) (cs : List Chunk) :
    Upserts doc (fun _ => True) (indexStage d doc cs) := by
  unfold indexStage
  refine upserts_bind (upserts_scope (upserts_setStatus _ _ _ _)) fun _ => ?_
  refine upserts_bind (upserts_publish _) fun _ => ?_
  refine upserts_bind (upserts_call trivial) fun _ => ?_
  refine upserts_bind (upserts_indexChunks ⟨hd.symm, rfl, rfl⟩ cs) fun rows => ?_
  refine upserts_bind (upserts_scope
    (upserts_bind (upserts_call trivial) fun _ => upserts_setStatus _ _ _ _)) fun _ => ?_
  exact upserts_bind (upserts_publish _) fun _ => trivial

private theorem upserts_failJob (text : String) : Upserts doc (fun _ => True) (failJob d text) := by
  unfold failJob
  refine upserts_bind (upserts_scope (upserts_setStatus _ _ _ _)) fun _ => ?_
  exact upserts_bind (upserts_publish _) fun _ => trivial

/-- Once the row is read, the rest of a program keeps to it. -/
private theorem reads_of_upserts {p : JobProg α} {post : α → Prop} (hp : Upserts doc post p) :
    p.Obeys (readsRow d) (fun ψ r => ψ = some doc ∧ ∀ a, r = .ok a → post a) (some doc) := by
  refine obeys_of_follows (fun o ho => ?_) hp
  cases o with
  | upsert points => exact ⟨⟨doc, rfl, ho⟩, fun _ _ => ⟨trivial, rfl⟩, fun _ => rfl⟩
  | getInternal d' => exact absurd ho id
  | _ => exact ⟨trivial, fun _ _ => ⟨trivial, rfl⟩, fun _ => rfl⟩

/-- After the first session the row is known, if there is work to do. -/
def RowKnown (d : Uuid) (row : Option Document) (r : Except JobErr (JobResult ⊕ Document)) : Prop :=
  ∀ doc, r = .ok (.inr doc) → row = some doc ∧ doc.id = d

private theorem rowKnown_error (row : Option Document) (e : JobErr) : RowKnown d row (.error e) := by
  rintro doc hdoc
  cases hdoc

private theorem beginBody_reads : (beginBody d).Obeys (readsRow d) (RowKnown d) none := by
  refine obeys_call rfl (fun row hrow => ?_) fun e => rowKnown_error _ e
  cases row with
  | none =>
    rintro doc hdoc
    cases hdoc
  | some doc =>
    have hid : doc.id = d := hrow doc rfl
    show (if doc.status = .indexed then pure (.inl .alreadyIndexed)
      else setStatus d .parsing none none none >>= fun _ => pure (.inr doc) :
        JobProg (JobResult ⊕ Document)).Obeys (readsRow d) (RowKnown d) (some doc)
    by_cases hst : doc.status = .indexed
    · rw [if_pos hst]
      rintro doc' hdoc
      cases hdoc
    · rw [if_neg hst]
      refine obeys_bind ((reads_of_upserts (upserts_setStatus _ _ _ _)).mono fun ψ r hr => ?_)
      obtain ⟨rfl, -⟩ := hr
      cases r with
      | error e => exact rowKnown_error _ e
      | ok _ =>
        rintro doc' hdoc
        cases hdoc
        exact ⟨rfl, hid⟩

private theorem beginJob_reads : (beginJob d).Obeys (readsRow d) (RowKnown d) none := by
  unfold beginJob sessionScope
  have hcatch : ∀ row e, (exceptException (.done (.error e) : JobProg (JobResult ⊕ Document))
    fun text => do
      job .rollback
      throw (.exception text)).Obeys (readsRow d) (RowKnown d) row := by
    intro row e
    cases e with
    | exception text =>
      exact obeys_call trivial (fun _ _ => rowKnown_error _ _) fun e => rowKnown_error _ e
    | cancelled => exact rowKnown_error _ _
  refine obeys_call trivial (fun _ _ => ?_) fun e => rowKnown_error _ e
  refine obeys_handle (obeys_bind (beginBody_reads.mono fun row r hr => ?_))
  cases r with
  | error e => exact hcatch row e
  | ok a => exact obeys_call trivial (fun _ _ => hr) fun e => hcatch row e

/-- A job upserts points of the row it has read. -/
theorem processDocument_reads : (processDocument lib d).Obeys (readsRow d) (fun _ _ => True) none := by
  unfold processDocument
  refine obeys_bind (beginJob_reads.mono fun row r hr => ?_)
  rcases r with e | r | doc
  · trivial
  · trivial
  · obtain ⟨rfl, hid⟩ := hr doc rfl
    have hrest : Upserts doc (fun _ => True) (do
        publishStatus d ⟨.parsing, none, none⟩
        exceptException
          (do
            let chunks ← chunkStage lib d doc
            indexStage d doc chunks)
          (failJob d)) := by
      refine upserts_bind (upserts_publish _) fun _ => upserts_except ?_ fun text => upserts_failJob text
      exact upserts_bind upserts_chunkStage fun cs => upserts_indexStage hid cs
    exact (reads_of_upserts hrest).mono fun _ _ _ => trivial

end

/-! ### The rows of a document -/

/-- The rows are the same ones, and the points are old ones or new ones of the call. -/
structure RowsKept (o : JobOp) (s s' : Stores) : Prop where
  rows : List.Forall₂ Document.SameAs s.documents.rows s'.documents.rows
  uuid : s.nextUuid ≤ s'.nextUuid
  points : ∀ p ∈ s'.points, p ∈ s.points ∨ ∃ new, o = .upsert new ∧ p ∈ new

theorem sameAs_rows (rows : List Document) : List.Forall₂ Document.SameAs rows rows :=
  List.forall₂_same.mpr fun d _ => .refl d

theorem RowsKept.of_rows {o : JobOp} {s s' : Stores} (hd : s'.documents = s.documents)
    (hu : s.nextUuid ≤ s'.nextUuid) (hp : s'.points ⊆ s.points) : RowsKept o s s' where
  rows := by
    rw [hd]
    exact sameAs_rows _
  uuid := hu
  points p h := Or.inl (hp h)

private theorem sameAs_update (docId : Uuid) (u : StatusUpdate) (rows : List Document) :
    List.Forall₂ Document.SameAs rows (rows.map (u.apply docId)) := by
  rw [List.forall₂_map_right_iff, List.forall₂_same]
  intro d _
  refine ⟨u.apply_key docId d, ?_⟩
  unfold StatusUpdate.apply
  split <;> rfl

/-- A transaction changes neither the rows' identities nor the points. -/
private theorem applyAll_rows {sts : List Stmt} {s s' : Stores} (h : s.applyAll sts = some s') :
    List.Forall₂ Document.SameAs s.documents.rows s'.documents.rows ∧ s'.nextUuid = s.nextUuid ∧
    s'.points = s.points := by
  induction sts generalizing s with
  | nil =>
    simp only [Stores.applyAll, Option.some.injEq] at h
    subst h
    exact ⟨sameAs_rows _, rfl, rfl⟩
  | cons st sts ih =>
    simp only [Stores.applyAll, Option.bind_eq_some_iff] at h
    obtain ⟨t, ht, h⟩ := h
    obtain ⟨hrows, huuid, hpoints⟩ := ih h
    cases st with
    | updateDocument docId u =>
      simp only [Stores.applyStmt, Option.some.injEq] at ht
      subst ht
      refine ⟨?_, huuid, hpoints⟩
      exact Related.forall₂_trans (fun _ _ _ hab hbc => hab.trans hbc) (sameAs_update docId u _) hrows
    | insertChunks rows =>
      simp only [Stores.applyStmt, Option.ite_none_right_eq_some, Option.map_eq_some_iff] at ht
      obtain ⟨-, t', -, rfl⟩ := ht
      exact ⟨hrows, huuid, hpoints⟩

/-- What a call of a job does to the rows of `documents` and to the points. -/
theorem jobReply_rows (pid : Nat) (env : JobReplies) (o : JobOp) (w : JobWorld) :
    RowsKept o w.stores (jobReply pid env o w).2.stores := by
  have hstmt : ∀ st, RowsKept o w.stores (w.statement pid st).2.stores := by
    intro st
    simp only [JobWorld.statement]
    split <;> exact .of_rows rfl (Nat.le_refl _) (List.Subset.refl _)
  cases o with
  | updateDocument docId u => exact hstmt _
  | insertChunks rows => exact hstmt _
  | commit =>
    simp only [jobReply]
    split
    · exact .of_rows rfl (Nat.le_refl _) (List.Subset.refl _)
    · rename_i s hs
      obtain ⟨hrows, huuid, hpoints⟩ := applyAll_rows hs
      exact ⟨hrows, Nat.le_of_eq huuid.symm, fun p hp => Or.inl (hpoints ▸ hp)⟩
  | uuid4 => exact .of_rows rfl (Nat.le_succ _) (List.Subset.refl _)
  | deletePoints docId => exact .of_rows rfl (Nat.le_refl _) (List.filter_subset_self _)
  | upsert new =>
    refine ⟨sameAs_rows _, Nat.le_refl _, ?_⟩
    intro p hp
    rcases List.mem_append.mp hp with hp | hp
    · exact Or.inl (List.mem_filter.mp hp).1
    · exact Or.inr ⟨new, rfl, hp⟩
  | _ => exact .of_rows rfl (Nat.le_refl _) (List.Subset.refl _)

end LegalRag
