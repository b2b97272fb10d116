import LegalRag.Calls.Protocol
import LegalRag.Db.Documents
import LegalRag.Ingestion.JobPhases

/-!
# Where the points of a job come from

A job reads its row, downloads the object of the row, parses it, and cuts what it has parsed into chunks;
the points it upserts and the rows it inserts are those of these chunks, and the one object it writes is
`parsed.md` (`processDocument_traces`).
-/

namespace LegalRag

open Calls Prog

/-- The document whose chunks a job indexes. -/
def Document.target (doc : Document) : IndexTarget := ⟨doc.id, doc.userId, doc.tenantId, doc.title⟩

theorem Document.SameAs.target {d d' : Document} (h : d.SameAs d') : d'.target = d.target := by
  have htitle : d'.title = d.title := congrArg NewDocument.title h.2
  simp only [Document.target, h.1, h.userId, h.tenantId, htitle]

/-- The point is that of one of the chunks. -/
def Point.FromChunks (t : IndexTarget) (cs : List Chunk) (p : Point) : Prop :=
  ∃ pointId v, ∃ c ∈ cs, p = pointOf t pointId c v

/-- The row is that of one of the chunks. -/
def DocumentChunk.FromChunks (t : IndexTarget) (cs : List Chunk) (r : DocumentChunk) : Prop :=
  ∃ pointId rowId, ∃ c ∈ cs, r = rowOf t pointId rowId c

/-- What a job has so far: its row, the object of the row, and what the parser makes of it. -/
inductive TracePhase where
  | unread
  | read (doc : Document)
  | fetched (doc : Document) (data : List UInt8)
  | parsed (doc : Document) (data : List UInt8) (result : ParseResult)

/-- A call that neither hands data to the job nor stores data of it. -/
def CarriesNothing : JobCalls.Op → Prop
  | .getInternal _ | .getObject _ | .parseFile .. | .putObject .. | .upsert _ | .insertChunks _ => False
  | _ => True

/-- What a job on the document `d` may call. -/
def traces (lib : ChunkerLib) (d : Uuid) : Protocol JobCalls JobErr TracePhase where
  allows
    | .unread, .getInternal d' => d' = d
    | .read doc, .getObject key => key = doc.storageKey
    | .fetched doc data, .parseFile data' mimeType filename =>
      data' = data ∧ mimeType = doc.mimeType ∧ filename = doc.title
    | .parsed doc _ result, .putObject key data _ =>
      key = markdownKeyOf doc.storageKey ∧ data = result.markdown.toUTF8.toList
    | .parsed doc _ result, .upsert points => ∀ p ∈ points, p.FromChunks doc.target (chunksOf lib result)
    | .parsed doc _ result, .insertChunks rows =>
      ∀ r ∈ rows, r.FromChunks doc.target (chunksOf lib result)
    | _, o => CarriesNothing o
  replies
    | _, .getInternal d', row => ∀ doc, row = some doc → doc.id = d'
    | _, _, _ => True
  next
    | .unread, .getInternal _, some doc => .read doc
    | .read doc, .getObject _, data => .fetched doc data
    | .fetched doc data, .parseFile .., result => .parsed doc data result
    | φ, _, _ => φ
  failed φ _ _ := φ

section Programs

variable {lib : ChunkerLib} {d : Uuid} {doc : Document} {α β : Type}

private theorem traces_allows {φ : TracePhase} {o : JobCalls.Op} (ho : CarriesNothing o) :
    (traces lib d).allows φ o := by
  cases φ <;> cases o <;> first | exact absurd ho id | trivial

private theorem traces_next {φ : TracePhase} {o : JobCalls.Op} (ho : CarriesNothing o) (a : JobCalls.Resp o) :
    (traces lib d).next φ o a = φ := by
  cases φ <;> cases o <;> first | exact absurd ho id | rfl

/-- A program that makes such calls only stays in its phase. -/
private theorem comesTo_of_carriesNothing {φ : TracePhase} {p : JobProg α} {post : α → Prop}
    (hp : p.Follows (fun _ _ => True) CarriesNothing post) : p.Obeys (traces lib d) (ComesTo φ post) φ :=
  comesTo_of_follows (fun _ ho => ⟨traces_allows ho, fun a _ => ⟨trivial, traces_next ho a⟩, fun _ => rfl⟩) hp

private theorem carriesNothing_call {o : JobCalls.Op} (ho : CarriesNothing o) : (job o).Only CarriesNothing :=
  only_perform ho

private theorem setStatus_carriesNothing (st : DocStatus) (error : Option String) (nChunks : Option Nat)
    (markdownKey : Option String) : (setStatus d st error nChunks markdownKey).Only CarriesNothing := by
  unfold setStatus
  split
  · exact only_bind (carriesNothing_call trivial) fun _ => carriesNothing_call trivial
  · exact carriesNothing_call trivial

private theorem scope_carriesNothing {body : JobProg α} (hbody : body.Only CarriesNothing) :
    (sessionScope body).Only CarriesNothing := by
  unfold sessionScope
  refine only_bind (carriesNothing_call trivial) fun _ => only_handle ?_ fun e => ?_
  · exact only_bind hbody fun _ => only_bind (carriesNothing_call trivial) fun _ => only_done _
  · cases e with
    | exception text => exact only_bind (carriesNothing_call trivial) fun _ => only_done _
    | cancelled => exact only_done _

private theorem failJob_carriesNothing (text : String) : (failJob d text).Only CarriesNothing :=
  only_bind (scope_carriesNothing (setStatus_carriesNothing _ _ _ _)) fun _ =>
    only_bind (carriesNothing_call trivial) fun _ => only_done _

/-- What the loop over the chunks builds. -/
private theorem buildPoints_fromChunks (t : IndexTarget) (cs : List Chunk) (vs : List Embedding) :
    (buildPoints t cs vs).Follows (fun _ _ => True) CarriesNothing fun built =>
      ∀ x ∈ built, x.1.FromChunks t cs ∧ x.2.FromChunks t cs := by
  induction cs generalizing vs with
  | nil =>
    cases vs with
    | nil =>
      intro x hx
      cases hx
    | cons v vs => trivial
  | cons c cs ih =>
    cases vs with
    | nil => trivial
    | cons v vs =>
      refine follows_bind ((follows_perform trivial).mono fun pointId _ => ?_)
      refine follows_bind ((follows_perform trivial).mono fun rowId _ => ?_)
      refine follows_bind ((ih vs).mono fun rest hrest x hx => ?_)
      rcases List.mem_cons.mp hx with rfl | hx
      · exact ⟨⟨pointId, v, c, List.mem_cons_self .., rfl⟩, ⟨pointId, rowId, c, List.mem_cons_self .., rfl⟩⟩
      · obtain ⟨⟨p, w, c', hc', hp⟩, q, r, c'', hc'', hr⟩ := hrest x hx
        exact ⟨⟨p, w, c', List.mem_cons_of_mem c hc', hp⟩, q, r, c'', List.mem_cons_of_mem c hc'', hr⟩

/-- A call that leaves the phase as it is. -/
private theorem comesTo_pass {φ ψ : TracePhase} {o : JobCalls.Op} {f : JobCalls.Resp o → JobProg β}
    {post : β → Prop} (ho : CarriesNothing o) (hf : ∀ a, (f a).Obeys (traces lib d) (ComesTo ψ post) φ) :
    (job o >>= f).Obeys (traces lib d) (ComesTo ψ post) φ :=
  comesTo_step (m := fun _ => True) (traces_allows ho) (fun a _ => ⟨traces_next ho a, trivial⟩)
    fun a _ => hf a

section Parsed

variable {data : List UInt8} {result : ParseResult}

private theorem upsertAll_traces {bs : List (List Point)}
    (h : ∀ b ∈ bs, ∀ p ∈ b, p.FromChunks doc.target (chunksOf lib result)) :
    (upsertAll bs).Obeys (traces lib d) (ComesTo (.parsed doc data result) fun _ => True)
      (.parsed doc data result) := by
  induction bs with
  | nil => exact fun a ha => ⟨rfl, trivial⟩
  | cons b bs ih =>
    refine comesTo_step (m := fun _ => True) (h b (List.mem_cons_self ..)) (fun _ _ => ⟨rfl, trivial⟩)
      fun _ _ => ?_
    exact ih fun b' hb' => h b' (List.mem_cons_of_mem b hb')

/-- The indexer upserts points of the chunks, and returns their rows. -/
private theorem indexChunks_traces :
    (indexChunks (chunksOf lib result) doc.target).Obeys (traces lib d)
      (ComesTo (.parsed doc data result) fun rows =>
        ∀ r ∈ rows, r.FromChunks doc.target (chunksOf lib result)) (.parsed doc data result) := by
  unfold indexChunks
  split
  · intro rows hrows
    cases hrows
    exact ⟨rfl, nofun⟩
  · refine comesTo_pass trivial fun vs => ?_
    refine comesTo_bind (comesTo_of_carriesNothing (buildPoints_fromChunks _ _ vs)) fun built hbuilt => ?_
    refine comesTo_bind (upsertAll_traces fun b hb p hp => ?_) fun _ _ => ?_
    · obtain ⟨x, hx, rfl⟩ := List.mem_map.mp (Redis.mem_of_mem_slices hb hp)
      exact (hbuilt x hx).1
    · intro rows hrows
      cases hrows
      refine ⟨rfl, fun r hr => ?_⟩
      obtain ⟨x, hx, rfl⟩ := List.mem_map.mp hr
      exact (hbuilt x hx).2

end Parsed

/-- A session whose block comes to a phase in which a transaction may be committed. -/
private theorem scope_traces {φ χ : TracePhase} {body : JobProg α} {post : α → Prop}
    (hbody : body.Obeys (traces lib d) (ComesTo χ post) φ) :
    (sessionScope body).Obeys (traces lib d) (ComesTo χ post) φ := by
  have hnext : ∀ (ψ : TracePhase) (o : JobCalls.Op) (a : JobCalls.Resp o), CarriesNothing o →
      (traces lib d).next ψ o a = ψ := fun ψ o a ho => traces_next ho a
  refine scope_obeys (traces_allows trivial) (hnext φ .openSession () trivial)
    (fun e => comesTo_error _ _ _ e) hbody ?_ ?_ fun ψ _ => comesTo_error _ _ _ _
  · intro ψ a ha
    refine ⟨traces_allows trivial, ?_, fun e => comesTo_error _ _ _ e⟩
    rw [hnext ψ .commit () trivial]
    exact ha
  · exact fun ψ text _ => ⟨traces_allows trivial, comesTo_error _ _ _ _, fun e => comesTo_error _ _ _ e⟩

/-- A job that goes on has read its row. -/
def KnowsRow (d : Uuid) (φ : TracePhase) (r : Except JobErr (JobResult ⊕ Document)) : Prop :=
  ∀ doc, r = .ok (.inr doc) → φ = .read doc ∧ doc.id = d

private theorem knowsRow_error (φ : TracePhase) (e : JobErr) : KnowsRow d φ (.error e) := by
  rintro doc ⟨⟩

private theorem beginBody_traces : (beginBody d).Obeys (traces lib d) (KnowsRow d) .unread := by
  refine obeys_perform_bind rfl (fun row hrow => ?_) fun e => knowsRow_error _ e
  cases row with
  | none =>
    rintro doc ⟨⟩
  | some doc =>
    have hid : doc.id = d := hrow doc rfl
    show (if doc.status = .indexed then pure (.inl .alreadyIndexed)
      else setStatus d .parsing none none none >>= fun _ => pure (.inr doc) :
        JobProg (JobResult ⊕ Document)).Obeys (traces lib d) (KnowsRow d) (.read doc)
    split
    · rintro doc' ⟨⟩
    · refine obeys_bind ((comesTo_of_carriesNothing (setStatus_carriesNothing _ _ _ _)).mono fun φ r hr => ?_)
      cases r with
      | error e => exact knowsRow_error φ e
      | ok _ =>
        obtain ⟨rfl, -⟩ := hr _ rfl
        rintro doc' ⟨⟩
        exact ⟨rfl, hid⟩

private theorem beginJob_traces : (beginJob d).Obeys (traces lib d) (KnowsRow d) .unread := by
  have hnext : ∀ (φ : TracePhase) (o : JobCalls.Op) (a : JobCalls.Resp o), CarriesNothing o →
      (traces lib d).next φ o a = φ := fun φ o a ho => traces_next ho a
  refine scope_obeys (traces_allows trivial) (hnext .unread .openSession () trivial)
    (fun e => knowsRow_error _ e) beginBody_traces ?_ ?_ fun φ _ => knowsRow_error _ _
  · intro φ a ha
    refine ⟨traces_allows trivial, ?_, fun e => knowsRow_error _ e⟩
    rw [hnext φ .commit () trivial]
    exact ha
  · exact fun φ text _ => ⟨traces_allows trivial, knowsRow_error _ _, fun e => knowsRow_error _ e⟩

private theorem progress_carriesNothing (st : DocStatus) (error : Option String) (nChunks : Option Nat)
    (markdownKey : Option String) :
    (sessionScope (setStatus d st error nChunks markdownKey)).Only CarriesNothing :=
  scope_carriesNothing (setStatus_carriesNothing _ _ _ _)

/-- The chunks are those of what the parser makes of the object of the row. -/
def KnowsChunks (lib : ChunkerLib) (doc : Document) (φ : TracePhase)
    (r : Except JobErr (List Chunk)) : Prop :=
  ∀ cs, r = .ok cs → ∃ data result, φ = .parsed doc data result ∧ cs = chunksOf lib result

private theorem chunkStage_traces :
    (chunkStage lib d doc).Obeys (traces lib d) (KnowsChunks lib doc) (.read doc) := by
  have herr : ∀ φ e, KnowsChunks lib doc φ (.error e) := by
    rintro φ e cs ⟨⟩
  unfold chunkStage
  refine obeys_perform_bind rfl (fun data _ => ?_) (herr _)
  refine obeys_perform_bind ⟨rfl, rfl, rfl⟩ (fun result _ => ?_) (herr _)
  refine obeys_perform_bind ⟨rfl, rfl⟩ (fun _ _ => ?_) (herr _)
  refine obeys_bind ((comesTo_of_carriesNothing (progress_carriesNothing _ _ _ _)).mono fun φ r hr => ?_)
  cases r with
  | error e => exact herr φ e
  | ok _ =>
    obtain ⟨rfl, -⟩ := hr _ rfl
    refine obeys_perform_bind (traces_allows trivial) (fun _ _ => ?_) (herr _)
    show (if (chunksOf lib result).isEmpty then throw (.exception "no chunks produced (empty document?)")
      else pure (chunksOf lib result) : JobProg (List Chunk)).Obeys (traces lib d) (KnowsChunks lib doc) _
    split
    · exact herr _ _
    · intro cs hcs
      cases hcs
      exact ⟨data, result, rfl, rfl⟩

private theorem finalBody_traces {data : List UInt8} {result : ParseResult} {rows : List DocumentChunk}
    (hrows : ∀ r ∈ rows, r.FromChunks doc.target (chunksOf lib result)) (n : Nat) :
    (do
      bulkInsertChunks rows
      setStatus d .indexed none (some n) none).Obeys (traces lib d)
      (ComesTo (.parsed doc data result) fun _ => True) (.parsed doc data result) := by
  refine comesTo_step (m := fun _ => True) hrows (fun _ _ => ⟨rfl, trivial⟩) fun _ _ => ?_
  exact comesTo_of_carriesNothing (setStatus_carriesNothing _ _ _ _)

private theorem indexStage_traces {data : List UInt8} {result : ParseResult} :
    (indexStage doc.id doc (chunksOf lib result)).Obeys (traces lib doc.id)
      (ComesTo (.parsed doc data result) fun _ => True) (.parsed doc data result) := by
  unfold indexStage
  refine comesTo_bind (comesTo_of_carriesNothing (progress_carriesNothing _ _ _ _)) fun _ _ => ?_
  refine comesTo_pass trivial fun _ => comesTo_pass trivial fun _ => ?_
  refine comesTo_bind indexChunks_traces fun rows hrows => ?_
  refine comesTo_bind (scope_traces (finalBody_traces hrows _)) fun _ _ => ?_
  refine comesTo_pass trivial fun _ => ?_
  exact fun _ _ => ⟨rfl, trivial⟩

/-- A job stores data of the object of its row only. -/
theorem processDocument_traces : (processDocument lib d).Obeys (traces lib d) (fun _ _ => True) .unread := by
  unfold processDocument
  refine obeys_bind (beginJob_traces.mono fun φ r hr => ?_)
  rcases r with e | r | doc
  · trivial
  · trivial
  · obtain ⟨rfl, rfl⟩ := hr doc rfl
    refine obeys_perform_bind (traces_allows trivial) (fun _ _ => ?_) fun _ => trivial
    -- whatever has failed, the `except` block stores no data
    have hcatch : ∀ φ (r : Except JobErr JobResult) (H : JobErr → JobProg JobResult),
        (∀ text, H (.exception text) = failJob doc.id text) → H .cancelled = throw .cancelled →
          (Prog.handle H (.done r)).Obeys (traces lib doc.id) (fun _ _ => True) φ := by
      intro φ r H hfail hcancel
      rcases r with (text | _) | a
      · show (H _).Obeys _ _ φ
        rw [hfail]
        exact (comesTo_of_carriesNothing (failJob_carriesNothing text)).mono fun _ _ _ => trivial
      · show (H _).Obeys _ _ φ
        rw [hcancel]
        trivial
      · trivial
    refine obeys_handle (obeys_bind (chunkStage_traces.mono fun φ r hr => ?_))
    cases r with
    | error e => exact hcatch φ _ _ (fun _ => rfl) rfl
    | ok cs =>
      obtain ⟨data, result, rfl, rfl⟩ := hr cs rfl
      exact indexStage_traces.mono fun φ r _ => hcatch φ r _ (fun _ => rfl) rfl

end Programs

/-! ### What a call stores -/

section Calls

variable {pid : Nat} {env : JobReplies} {o : JobOp} {w : JobWorld}

/-- A transaction inserts the rows of its statements, and touches no object. -/
private theorem applyAll_chunks {sts : List Stmt} {s s' : Stores} (h : s.applyAll sts = some s') :
    s'.objects = s.objects ∧ ∀ r ∈ s'.chunks.rows, r ∈ s.chunks.rows ∨
      ∃ rows, .insertChunks rows ∈ sts ∧ r ∈ rows := by
  induction sts generalizing s with
  | nil =>
    obtain rfl := Option.some.inj h
    exact ⟨rfl, fun r hr => Or.inl hr⟩
  | cons st sts ih =>
    obtain ⟨t, ht, h⟩ := Option.bind_eq_some_iff.mp h
    obtain ⟨hobjects, hchunks⟩ := ih h
    have hlater : ∀ r, (∃ rows, .insertChunks rows ∈ sts ∧ r ∈ rows) →
        ∃ rows, .insertChunks rows ∈ st :: sts ∧ r ∈ rows := by
      rintro r ⟨rows, hrows, hr⟩
      exact ⟨rows, List.mem_cons_of_mem st hrows, hr⟩
    cases st with
    | updateDocument docId u =>
      obtain rfl := Option.some.inj ht
      exact ⟨hobjects, fun r hr => (hchunks r hr).imp_right (hlater r)⟩
    | insertChunks rows =>
      simp only [Stores.applyStmt, Option.ite_none_right_eq_some, Option.map_eq_some_iff] at ht
      obtain ⟨-, t', hinsert, rfl⟩ := ht
      refine ⟨hobjects, fun r hr => ?_⟩
      rcases hchunks r hr with hr | hr
      · rcases (Relational.Table.mem_insert? hinsert).mp hr with hr | hr
        · exact Or.inl hr
        · exact Or.inr ⟨rows, List.mem_cons_self .., hr⟩
      · exact Or.inr (hlater r hr)

theorem jobReply_objects (ho : ∀ key data contentType, o ≠ .putObject key data contentType) :
    (jobReply pid env o w).2.stores.objects = w.stores.objects := by
  cases o with
  | putObject key data contentType => exact absurd rfl (ho key data contentType)
  | updateDocument docId u => exact congrArg Stores.objects (JobWorld.statement_stores ..)
  | insertChunks rows => exact congrArg Stores.objects (JobWorld.statement_stores ..)
  | commit =>
    simp only [jobReply]
    split
    · rfl
    · rename_i s hs
      exact (applyAll_chunks hs).1
  | _ => rfl

/-- The rows of chunks come from the transaction of the execution. -/
theorem jobReply_chunks : ∀ r ∈ (jobReply pid env o w).2.stores.chunks.rows, r ∈ w.stores.chunks.rows ∨
    ∃ rows, .insertChunks rows ∈ (w.executions pid).pending ∧ r ∈ rows := by
  cases o with
  | updateDocument docId u => exact fun r hr => Or.inl (congrArg (·.chunks.rows) (w.statement_stores pid _) ▸ hr)
  | insertChunks rows => exact fun r hr => Or.inl (congrArg (·.chunks.rows) (w.statement_stores pid _) ▸ hr)
  | commit =>
    simp only [jobReply]
    split
    · exact fun r hr => Or.inl hr
    · rename_i s hs
      exact (applyAll_chunks hs).2
  | _ => exact fun r hr => Or.inl hr

/-- The inserts of a transaction are those that its execution has made. -/
theorem jobReply_pending {q : Nat} {rows : List DocumentChunk}
    (h : .insertChunks rows ∈ ((jobReply pid env o w).2.executions q).pending) :
    .insertChunks rows ∈ (w.executions q).pending ∨ o = .insertChunks rows := by
  -- an execution with another record
  have hset : ∀ (e : Execution), .insertChunks rows ∈ ((w.setExecution pid e).executions q).pending →
      (∀ st ∈ e.pending, st = .insertChunks rows → st ∈ (w.executions pid).pending ∨
        o = .insertChunks rows) → .insertChunks rows ∈ (w.executions q).pending ∨ o = .insertChunks rows := by
    intro e hmem he
    by_cases hq : q = pid
    · subst hq
      simp only [JobWorld.setExecution, Function.update_self] at hmem
      exact he _ hmem rfl
    · simp only [JobWorld.setExecution, Function.update_of_ne hq] at hmem
      exact Or.inl hmem
  have hstmt : ∀ st, .insertChunks rows ∈ ((w.statement pid st).2.executions q).pending →
      (st = .insertChunks rows → o = .insertChunks rows) →
        .insertChunks rows ∈ (w.executions q).pending ∨ o = .insertChunks rows := by
    intro st hmem ho
    simp only [JobWorld.statement] at hmem
    split at hmem
    · exact Or.inl hmem
    · refine hset _ hmem fun st' hst' heq => ?_
      rcases List.mem_append.mp hst' with hst' | hst'
      · exact Or.inl hst'
      · exact Or.inr (ho ((List.mem_singleton.mp hst').symm.trans heq))
  cases o with
  | openSession => exact hset _ h fun st hst _ => absurd hst List.not_mem_nil
  | rollback => exact hset _ h fun st hst _ => absurd hst List.not_mem_nil
  | getInternal docId => exact hset _ h fun st hst _ => Or.inl hst
  | updateDocument docId u => exact hstmt _ h fun heq => by cases heq
  | insertChunks rows' =>
    exact hstmt _ h fun heq => congrArg JobOp.insertChunks (Stmt.insertChunks.inj heq)
  | commit =>
    simp only [jobReply] at h
    split at h
    · exact Or.inl h
    · exact hset _ h fun st hst _ => absurd hst List.not_mem_nil
  | _ => exact Or.inl h

end Calls

end LegalRag
