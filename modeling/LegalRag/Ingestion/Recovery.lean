import LegalRag.Ingestion.Consistent

/-!
# Running a job again

An execution in which nothing fails on its way indexes a document that can be worked on exactly when it is
indexed already or has no rows (`recovers_iff`).  Rows are never deleted, so a document that has them
without being indexed is refused by `uq_chunk_doc_idx` in every later execution.  Such a document comes
from an execution whose last commit took effect and whose call after it failed (`failed_again`).
-/

namespace LegalRag

open Calls Prog Relational

/-- The row of the document exists, its object is there and parses to at least one chunk, and the chunks
fit the columns and get their vectors. -/
structure Workable (lib : ChunkerLib) (env : JobReplies) (d : Uuid) (doc : Document) (data : List UInt8)
    (parsed : ParseResult) (vs : List Embedding) (s : Stores) : Prop where
  row : doc ∈ s.documents.rows
  id : doc.id = d
  object : s.objects doc.storageKey = some data
  parses : env.parse data doc.mimeType doc.title = .ok parsed
  chunks : chunksOf lib parsed ≠ []
  fits : ∀ c ∈ chunksOf lib parsed, c.headingPath.all (·.length ≤ 1024)
  embeds : env.embed ((chunksOf lib parsed).map Chunk.text) = .ok vs
  vectors : (chunksOf lib parsed).length = vs.length

/-- No row belongs to the document. -/
def NoRows (d : Uuid) (t : Table DocumentChunk.key) : Prop := ∀ r ∈ t.rows, r.documentId ≠ d

/-- An execution is on its way, and the table of the chunks is still `t`. -/
structure Underway (d : Uuid) (t : Table DocumentChunk.key) (s : Stores) : Prop where
  chunks : s.chunks = t
  stored : ∃ doc ∈ s.documents.rows, doc.id = d
  notIndexed : NotIndexed d s

private theorem Underway.update {d : Uuid} {t : Table DocumentChunk.key} {s : Stores} (h : Underway d t s)
    {u : StatusUpdate} (hu : u.status ≠ .indexed) : Underway d t (s.update d u) := by
  refine ⟨h.chunks, ?_, notIndexed_update hu s⟩
  obtain ⟨doc, hdoc, hid⟩ := h.stored
  refine ⟨u.apply d doc, List.mem_map_of_mem hdoc, ?_⟩
  rw [← hid]
  exact u.apply_key doc.id doc

/-- Rows that the last session can insert unless the document has rows. -/
structure Insertable (d : Uuid) (rows : List DocumentChunk) : Prop where
  docs : ∀ r ∈ rows, r.documentId = d
  numbers : rows.map DocumentChunk.chunkIndex = List.range rows.length
  nonempty : rows ≠ []
  fits : ∀ r ∈ rows, r.fits

private theorem Insertable.nodup {d : Uuid} {rows : List DocumentChunk} (h : Insertable d rows) :
    (rows.map DocumentChunk.key).Nodup := by
  have hnum : (rows.map DocumentChunk.chunkIndex).Nodup := by
    rw [h.numbers]
    exact List.nodup_range
  have hsnd : (rows.map DocumentChunk.key).map Prod.snd = rows.map DocumentChunk.chunkIndex :=
    by simp [DocumentChunk.key]
  rw [← hsnd] at hnum
  exact hnum.of_map _

private theorem Insertable.first {d : Uuid} {rows : List DocumentChunk} (h : Insertable d rows) : ∃ r ∈ rows,
    r.key = (d, 0) := by
  have hzero : 0 ∈ rows.map DocumentChunk.chunkIndex := by
    rw [h.numbers, List.mem_range]
    exact List.length_pos_of_ne_nil h.nonempty
  obtain ⟨r, hr, hidx⟩ := List.mem_map.mp hzero
  exact ⟨r, hr, by rw [DocumentChunk.key, h.docs r hr, hidx]⟩

/-- The table takes the rows unless the document has some. -/
private theorem Insertable.refused_iff {d : Uuid} {rows : List DocumentChunk} (h : Insertable d rows)
    {t : Table DocumentChunk.key} {s : Stores} (hs : Underway d t s)
    (hfirst : ∀ r ∈ t.rows, r.documentId = d → ∃ r' ∈ t.rows, r'.key = (d, 0)) :
    s.applyStmt (.insertChunks rows) = none ↔ ¬ NoRows d t := by
  have hall : (rows.all fun r => r.fits && s.documents.rows.any fun doc => doc.id = r.documentId) = true := by
    rw [List.all_eq_true]
    intro r hr
    obtain ⟨doc, hdoc, hid⟩ := hs.stored
    rw [Bool.and_eq_true, h.fits r hr, List.any_eq_true]
    exact ⟨rfl, doc, hdoc, by simp [hid, h.docs r hr]⟩
  have heq : s.applyStmt (.insertChunks rows) = (t.insert? rows).map fun t' =>
      { s with chunks := t' } := by
    rw [Stores.applyStmt, if_pos hall, hs.chunks]
  rw [heq, Option.map_eq_none_iff, Table.insert?]
  constructor
  · intro hnone hno
    have hnodup : ((t.rows ++ rows).map DocumentChunk.key).Nodup := by
      rw [List.map_append, List.nodup_append]
      refine ⟨t.unique, h.nodup, ?_⟩
      intro k hk k' hk' he
      obtain ⟨r, hr, rfl⟩ := List.mem_map.mp hk
      obtain ⟨r', hr', rfl⟩ := List.mem_map.mp hk'
      have hd : r.documentId = r'.documentId := congrArg Prod.fst he
      exact hno r hr (hd.trans (h.docs r' hr'))
    rw [dif_pos hnodup] at hnone
    cases hnone
  · intro hrows
    have hex : ∃ r ∈ t.rows, r.documentId = d := by
      by_contra hne
      exact hrows fun r hr hd => hne ⟨r, hr, hd⟩
    obtain ⟨r, hr, hd⟩ := hex
    obtain ⟨r₁, hr₁, hk₁⟩ := hfirst r hr hd
    obtain ⟨r₂, hr₂, hk₂⟩ := h.first
    rw [dif_neg]
    intro hnodup
    rw [List.map_append, List.nodup_append] at hnodup
    exact hnodup.2.2 _ (List.mem_map_of_mem hr₁) _ (List.mem_map_of_mem hr₂) (hk₁.trans hk₂.symm)

/-! ### Programs in which no call fails on its way -/

section Clean

variable {α β : Type} {pid : Nat} {env : JobReplies} {lib : ChunkerLib} {d : Uuid}
  {t : Table DocumentChunk.key} {Q : Stores → Prop}

/-- `Spec` without faults and without an invariant. -/
abbrev Clean (pid : Nat) (env : JobReplies) (Q : Stores → Prop) (p : JobProg α)
    (R : Except JobErr α → Stores → Prop) : Prop :=
  Spec false pid env (fun _ => True) Q p R

/-- The program returns, and `M` holds. -/
abbrev Returns (M : α → Stores → Prop) (r : Except JobErr α) (s : Stores) : Prop := ∃ a, r = .ok a ∧ M a s

private theorem clean_bind {p : JobProg α} {f : α → JobProg β} {M : α → Stores → Prop}
    {R : Except JobErr β → Stores → Prop}
    (hp : Clean pid env Q p (Returns M)) (hf : ∀ a, Clean pid env (M a) (f a) R) :
    Clean pid env Q (p >>= f) R := by
  refine spec_bind hp (fun a => (hf a).mono ?_ fun _ _ _ h => h) ?_
  · rintro s ⟨b, hb, hM⟩
    cases hb
    exact hM
  · rintro e s - ⟨b, hb, -⟩
    cases hb

/-- A call that answers with `a`. -/
private theorem clean_call {o : JobCalls.Op} (a : JobCalls.Resp o) (eff : Stores → Stores)
    {M : JobCalls.Resp o → Stores → Prop} (hrep : ∀ w, Q w.stores → (jobReply pid env o w).1 = .ok a)
    (heff : ∀ w, (jobReply pid env o w).2.stores = eff w.stores) (hM : ∀ s, Q s → M a (eff s)) :
    Clean pid env Q (job o) (Returns M) := by
  refine spec_of_forall fun s hs => ?_
  intro w hw
  refine always_job trivial trivial ⟨trivial, a, ?_, ?_⟩ fun hf => by cases hf
  · exact hrep w (by rwa [hw])
  · show M a (jobReply pid env o w).2.stores
    rw [heff, hw]
    exact hM s hs

private theorem clean_progress {st : DocStatus} (hst : st ≠ .indexed) (error : Option String)
    (nChunks : Option Nat) (markdownKey : Option String) :
    Clean pid env (Underway d t) (sessionScope (setStatus d st error nChunks markdownKey))
      (Returns fun _ => Underway d t) := by
  refine spec_setStatus hst d error nChunks markdownKey (fun _ _ => ⟨trivial, trivial⟩) ?_ fun hf =>
    by cases hf
  exact fun s hs => ⟨(), rfl, hs.update hst⟩

private theorem clean_publish (e : StatusEvent) : Clean pid env Q (publishStatus d e) (Returns fun _ => Q) :=
  clean_call () id (fun _ _ => rfl) (fun _ => rfl) fun _ hs => hs

private theorem clean_chunkStage {doc : Document} {data : List UInt8} {parsed : ParseResult}
    (hparse : env.parse data doc.mimeType doc.title = .ok parsed) (hne : chunksOf lib parsed ≠ []) :
    Clean pid env (fun s => Underway d t s ∧ s.objects doc.storageKey = some data) (chunkStage lib d doc)
      (Returns fun cs s => cs = chunksOf lib parsed ∧ Underway d t s) := by
  have hget : Clean pid env (fun s => Underway d t s ∧ s.objects doc.storageKey = some data)
      (job (.getObject doc.storageKey)) (Returns fun a s => a = data ∧ Underway d t s) := by
    refine clean_call data id ?_ (fun _ => rfl) fun s hs => ⟨rfl, hs.1⟩
    intro w hw
    simp [jobReply, Stores.fetch, hw.2]
  refine clean_bind hget fun a => ?_
  refine spec_of_forall fun s₀ h => ?_
  obtain ⟨rfl, h₀⟩ := h
  have hparsed : Clean pid env (fun s => s = s₀) (job (.parseFile a doc.mimeType doc.title))
      (Returns fun b s => b = parsed ∧ s = s₀) :=
    clean_call parsed id (fun w _ => by simpa only [jobReply] using hparse) (fun _ => rfl) fun s hs =>
    ⟨rfl, hs⟩
  refine clean_bind hparsed fun b => ?_
  refine spec_of_forall fun s₁ h => ?_
  obtain ⟨rfl, rfl⟩ := h
  have hput : Clean pid env (fun s => s = s₁)
      (job (.putObject (markdownKeyOf doc.storageKey) b.markdown.toUTF8.toList "text/markdown"))
      (Returns fun _ => Underway d t) := by
    refine clean_call () (Stores.put _ _) (fun _ _ => rfl) (fun _ => rfl) ?_
    rintro s rfl
    exact ⟨h₀.chunks, h₀.stored, h₀.notIndexed⟩
  refine clean_bind hput fun _ => clean_bind (clean_progress (by decide) none none _) fun _ => ?_
  refine clean_bind (clean_publish _) fun _ => ?_
  rw [if_neg (by simpa using hne)]
  exact spec_done (fun _ _ => trivial) fun s hs => ⟨_, rfl, rfl, hs⟩

private theorem clean_indexChunks {u : IndexTarget} {cs : List Chunk} {vs : List Embedding} (hne : cs ≠ [])
    (hidx : cs.map Chunk.index = List.range cs.length) (hfits : ∀ c ∈ cs, c.headingPath.all (·.length ≤ 1024))
    (hembed : env.embed (cs.map Chunk.text) = .ok vs) (hlen : cs.length = vs.length) :
    Clean pid env (Underway u.docId t) (indexChunks cs u)
      (Returns fun rows s => Insertable u.docId rows ∧ Underway u.docId t s) := by
  rw [indexChunks, if_neg (by simpa using hne)]
  -- the vectors, the points and rows made of them, and the points in the collection
  have hcall : Clean pid env (Underway u.docId t) (job (.embed (cs.map Chunk.text)))
      (Returns fun a s => a = vs ∧ Underway u.docId t s) :=
    clean_call vs id (fun _ _ => by simpa only [jobReply] using hembed) (fun _ => rfl) fun s hs =>
    ⟨rfl, hs⟩
  refine clean_bind hcall fun a => ?_
  refine spec_of_forall fun s h => ?_
  obtain ⟨rfl, hs⟩ := h
  have hbuild : Clean pid env (fun s' => s' = s) (buildPoints u cs a)
      (Returns fun b s' => b = builtFrom u s.nextUuid cs a ∧ Underway u.docId t s') := by
    refine (spec_buildPoints u cs a s fun _ _ => trivial).mono (fun _ h => h) ?_
    rintro r s' - ⟨⟨m, -, rfl⟩, hok, herr⟩
    cases r with
    | ok b => exact ⟨b, rfl, (hok b rfl).1, hs.chunks, hs.stored, hs.notIndexed⟩
    | error e =>
      rcases herr e rfl with h | h
      · cases h
      · exact absurd hlen h
  refine clean_bind hbuild fun b => ?_
  refine spec_of_forall fun s₁ h => ?_
  obtain ⟨rfl, hs₁⟩ := h
  have hupsert : Clean pid env (fun s' => s' = s₁)
    (upsertAll (Redis.slices 128 ((builtFrom u s.nextUuid cs a).map Prod.fst)))
      (Returns fun _ => Underway u.docId t) := by
    refine (spec_upsertAll _ s₁ fun _ _ => trivial).mono (fun _ h => h) ?_
    rintro r s' - ⟨⟨bs, -, rfl⟩, -, herr⟩
    cases r with
    | ok x =>
      refine ⟨x, rfl, ?_⟩
      rw [upserts_eq]
      exact ⟨hs₁.chunks, hs₁.stored, hs₁.notIndexed⟩
    | error e => cases herr e rfl
  refine clean_bind hupsert fun _ => spec_done (fun _ _ => trivial) fun s₂ hs₂ => ⟨_, rfl, ?_, hs₂⟩
  -- the rows can be inserted
  obtain ⟨hnum, hhead⟩ := builtFrom_rows u s.nextUuid hlen
  have hrows : ((builtFrom u s.nextUuid cs a).map Prod.snd).length = cs.length := by
    have h := congrArg List.length hnum
    simpa using h
  refine ⟨?_, ?_, ?_, ?_⟩
  · intro r hr
    obtain ⟨x, hx, rfl⟩ := List.mem_map.mp hr
    exact (builtFrom_docs u s.nextUuid cs a x hx).2.1
  · rw [hrows, hnum, hidx]
  · intro hnil
    rw [hnil] at hrows
    exact hne (List.length_eq_zero_iff.mp hrows.symm)
  · intro r hr
    have hmem : r.headingPath ∈ cs.map Chunk.headingPath := by
      rw [← hhead]
      exact List.mem_map_of_mem hr
    obtain ⟨c, hc, hcr⟩ := List.mem_map.mp hmem
    rw [DocumentChunk.fits, ← hcr]
    exact hfits c hc

/-- How the work on a document ends. -/
def Settled (d : Uuid) (t : Table DocumentChunk.key) : Except JobErr α → Stores → Prop
  | .ok _, s => IsIndexed d s ∧ NoRows d t
  | .error _, s => NotIndexed d s ∧ ¬ NoRows d t

/-- The last session: it goes through unless the document has rows. -/
private theorem clean_final {rows : List DocumentChunk} (hr : Insertable d rows)
    (hfirst : ∀ r ∈ t.rows, r.documentId = d → ∃ r' ∈ t.rows, r'.key = (d, 0)) :
    Clean pid env (Underway d t) (sessionScope (finalBody d rows)) (Settled d t) := by
  have hrefused := fun (s : Stores) (hs : Underway d t s) => hr.refused_iff hs hfirst
  refine spec_scope (fun s _ => collects_final d rows s) (fun _ _ => trivial) ?_ ?_ ?_ fun hf =>
    by cases hf
  · intro s a sts s' hs hk hc
    rw [hk.1 a rfl] at hc
    refine ⟨trivial, ?_, ?_⟩
    · obtain ⟨-, -, -, hdocs⟩ := applyAll_final hc
      obtain ⟨doc, hdoc, hid⟩ := hs.stored
      refine ⟨(indexedUpdate rows.length env.clock).apply d doc, ?_, ?_, ?_⟩
      · rw [hdocs]
        exact List.mem_map_of_mem hdoc
      · rw [← hid]
        exact (indexedUpdate rows.length env.clock).apply_key doc.id doc
      · simp [StatusUpdate.apply, hid, indexedUpdate]
    · by_contra hno
      rw [Stores.applyAll, (hrefused s hs).mpr hno] at hc
      cases hc
  · intro s a sts hs hk hc
    rw [hk.1 a rfl] at hc
    refine ⟨hs.notIndexed, (hrefused s hs).mp ?_⟩
    cases happ : s.applyStmt (.insertChunks rows) with
    | none => rfl
    | some s' =>
      rw [Stores.applyAll, happ] at hc
      cases hc
  · intro s e sts hs hk
    rcases hk.2 e rfl with h | h
    · cases h
    · exact ⟨hs.notIndexed, (hrefused s hs).mp h⟩

private theorem clean_indexStage {doc : Document} {cs : List Chunk} {vs : List Embedding} (hne : cs ≠ [])
    (hidx : cs.map Chunk.index = List.range cs.length) (hfits : ∀ c ∈ cs, c.headingPath.all (·.length ≤ 1024))
    (hembed : env.embed (cs.map Chunk.text) = .ok vs) (hlen : cs.length = vs.length)
    (hfirst : ∀ r ∈ t.rows, r.documentId = d → ∃ r' ∈ t.rows, r'.key = (d, 0)) :
    Clean pid env (Underway d t) (indexStage d doc cs) (Settled d t) := by
  refine clean_bind (clean_progress (by decide) none none none) fun _ =>
    clean_bind (clean_publish _) fun _ => ?_
  have hdelete : Clean pid env (Underway d t) (deleteDocVectors d) (Returns fun _ => Underway d t) :=
    clean_call () (Stores.deletePoints (toString d)) (fun _ _ => rfl) (fun _ => rfl)
      fun s hs => ⟨hs.chunks, hs.stored, hs.notIndexed⟩
  refine clean_bind hdelete fun _ => ?_
  have hindex :=
    @clean_indexChunks pid env t ⟨d, doc.userId, doc.tenantId, doc.title⟩ cs vs hne hidx hfits hembed hlen
  refine clean_bind hindex fun rows => spec_of_forall fun s h => ?_
  obtain ⟨hrows, hs⟩ := h
  have hfinal : Clean pid env (fun s' => s' = s) (sessionScope (finalBody d rows)) (Settled d t) :=
    (clean_final hrows hfirst).mono (fun s' hs' => by rw [hs']; exact hs) fun _ _ _ h => h
  refine spec_bind hfinal (fun _ => ?_) fun _ _ _ h => h
  refine clean_bind (M := fun _ s => IsIndexed d s ∧ NoRows d t) (clean_publish _) fun _ => ?_
  exact spec_done (fun _ _ => trivial) fun _ h => h

private theorem clean_failJob (text : String) :
    Clean pid env Q (failJob d text) fun _ s => NotIndexed d s := by
  have hset : Clean pid env Q (sessionScope (setStatus d .failed (some (cut 2000 text)) none none))
      (Returns fun _ => NotIndexed d) := by
    refine spec_setStatus (by decide) d _ none none (fun _ _ => ⟨trivial, trivial⟩) ?_ fun hf =>
      by cases hf
    exact fun s _ => ⟨(), rfl, notIndexed_update (by simp) s⟩
  refine clean_bind hset fun _ => clean_bind (clean_publish _) fun _ => ?_
  exact spec_done (fun _ _ => trivial) fun _ h => h

/-- The first session, when the row is there. -/
private theorem clean_beginJob {doc : Document} {s₀ : Stores} (hrow : doc ∈ s₀.documents.rows)
    (hid : doc.id = d) : Clean pid env (fun s => s = s₀) (beginJob d) (Returns fun a s =>
      (a = .inl .alreadyIndexed ∧ IsIndexed d s₀ ∧ s = s₀) ∨
        (a = .inr doc ∧ ¬ IsIndexed d s₀ ∧ Underway d s₀.chunks s ∧ s.objects = s₀.objects)) := by
  have hfind : s₀.documents.rows.find? (fun doc => doc.key = d) = some doc := by
    rw [← hid]
    exact Table.find?_key s₀.documents hrow
  have hindexed : IsIndexed d s₀ ↔ doc.status = .indexed := by
    constructor
    · rintro ⟨doc', hdoc', hid', hst⟩
      have heq : doc' = doc := s₀.documents.eq_of_key hdoc' hrow (hid'.trans hid.symm)
      rwa [← heq]
    · exact fun hst => ⟨doc, hrow, hid, hst⟩
  have hbody : ∀ s, s = s₀ → Collects false pid env s (beginBody d)
      fun r sts => (doc.status = .indexed ∧ r = .ok (.inl .alreadyIndexed) ∧ sts = []) ∨
        (doc.status ≠ .indexed ∧ r = .ok (.inr doc) ∧
          sts = [.updateDocument d ⟨.parsing, none, none, none, none⟩]) := by
    rintro s rfl
    refine collects_call (some doc) [] ?_ ?_ fun hf => by cases hf
    · intro w hs hp
      subst hs
      refine ⟨?_, rfl, by simpa [jobReply, JobWorld.setExecution] using hp⟩
      simp only [jobReply, hfind]
    show CollectsFrom false pid env s [] (if doc.status = .indexed then pure (.inl .alreadyIndexed)
        else setStatus d .parsing none none none >>= fun _ => pure (.inr doc) :
          JobProg (JobResult ⊕ Document)) _
    by_cases hst : doc.status = .indexed
    · rw [if_pos hst]
      exact collects_done (Or.inl ⟨hst, rfl, rfl⟩)
    · rw [if_neg hst]
      refine collects_call () [.updateDocument d ⟨.parsing, none, none, none, none⟩]
        (fun w hs hp => statement_accepted hs hp rfl) (collects_done ?_) fun hf => by cases hf
      exact Or.inr ⟨hst, rfl, rfl⟩
  refine spec_scope hbody (fun _ _ => trivial) ?_ ?_ ?_ fun hf => by cases hf
  · rintro s a sts s' rfl hk hc
    refine ⟨trivial, a, rfl, ?_⟩
    rcases hk with ⟨hst, ha, rfl⟩ | ⟨hst, ha, rfl⟩
    · obtain rfl : s = s' := by simpa [Stores.applyAll] using hc
      exact Or.inl ⟨Except.ok.inj ha, hindexed.mpr hst, rfl⟩
    · obtain rfl : s.update d ⟨.parsing, none, none, none, none⟩ = s' := by
        simpa [Stores.applyAll, Stores.applyStmt] using hc
      have hn : ¬ IsIndexed d s := fun h => hst (hindexed.mp h)
      have hunder : Underway d s.chunks s := ⟨rfl, ⟨doc, hrow, hid⟩, notIndexed_iff.mpr hn⟩
      exact Or.inr ⟨Except.ok.inj ha, hn, hunder.update (by decide), rfl⟩
  · rintro s a sts rfl (⟨-, -, rfl⟩ | ⟨-, -, rfl⟩) hc
    · cases hc
    · simp [Stores.applyAll, Stores.applyStmt] at hc
  · rintro s e sts rfl (⟨-, he, -⟩ | ⟨-, he, -⟩) <;> cases he

/-- An execution without a fault. -/
private theorem clean_processDocument {doc : Document} {data : List UInt8} {parsed : ParseResult}
    {vs : List Embedding} {s₀ : Stores} (hw : Workable lib env d doc data parsed vs s₀)
    (hfirst : ∀ r ∈ s₀.chunks.rows, r.documentId = d → ∃ r' ∈ s₀.chunks.rows, r'.key = (d, 0)) :
    Clean pid env (fun s => s = s₀) (processDocument lib d) fun _ s =>
      IsIndexed d s ↔ IsIndexed d s₀ ∨ NoRows d s₀.chunks := by
  refine clean_bind (clean_beginJob hw.row hw.id) fun a => spec_of_forall fun s₁ hs₁ => ?_
  rcases hs₁ with ⟨rfl, hi, rfl⟩ | ⟨rfl, hn, hunder, hobj⟩
  · -- the document is indexed already, and the job returns
    refine spec_done (fun _ _ => trivial) ?_
    rintro s rfl
    exact ⟨fun _ => Or.inl hi, fun _ => hi⟩
  refine clean_bind (clean_publish _) fun _ => ?_
  have hwork : Clean pid env (fun s => s = s₁)
      (do
        let chunks ← chunkStage lib d doc
        indexStage d doc chunks) (Settled d s₀.chunks) := by
    have hchunk := @clean_chunkStage pid env lib d s₀.chunks doc data parsed hw.parses hw.chunks
    refine clean_bind (hchunk.mono ?_ fun _ _ _ h => h) fun cs => spec_of_forall fun s₂ h => ?_
    · rintro s rfl
      exact ⟨hunder, by rw [hobj, hw.object]⟩
    · obtain ⟨rfl, hs₂⟩ := h
      have hindex :=
        @clean_indexStage pid env d s₀.chunks doc _ vs hw.chunks (chunkDocument_index lib 800 100 parsed)
        hw.fits hw.embeds hw.vectors hfirst
      refine hindex.mono ?_ fun _ _ _ h => h
      rintro s rfl
      exact hs₂
  have hnot : ¬ NoRows d s₀.chunks → ¬ (IsIndexed d s₀ ∨ NoRows d s₀.chunks) := by
    rintro hno (h | h)
    · exact hn h
    · exact hno h
  -- the stages are done, or cancelled, or fail and the job says so
  refine spec_except hwork ?_ ?_ fun text => ?_
  · rintro a s ⟨hi, hno⟩
    exact ⟨fun _ => Or.inr hno, fun _ => hi⟩
  · rintro s ⟨hs, hno⟩
    exact iff_of_false (notIndexed_iff.mp hs) (hnot hno)
  · refine spec_of_forall fun s hs => (clean_failJob text).mono (fun _ h => h) ?_
    rintro r s' - hs'
    exact iff_of_false (notIndexed_iff.mp hs') (hnot hs.2)

end Clean

/-- After whatever executions on an uploaded document, one more in which nothing fails on its way leaves
it indexed exactly when it was indexed already or has no rows. -/
theorem recovers_iff {lib : ChunkerLib} {d : Uuid} {w : JobWorld} (h : Uploaded d w.stores)
    (as : List Attempt) {env : JobReplies} {doc : Document} {data : List UInt8} {parsed : ParseResult}
    {vs : List Embedding} (hw : Workable lib env d doc data parsed vs (attempts lib d as w).stores) :
    IsIndexed d (attempts lib d (as ++ [⟨env, []⟩]) w).stores ↔
      IsIndexed d (attempts lib d as w).stores ∨ NoRows d (attempts lib d as w).stores.chunks := by
  have hfirst := (@inv_attempts lib d w h.inv as).first
  have hclean :=
    @clean_processDocument 0 env lib d doc data parsed vs _ hw hfirst ((attempts lib d as w).begin 0) rfl
  have hlast : attempts lib d (as ++ [⟨env, []⟩]) w =
      ((processDocument lib d).exec (jobHandler 0 env) ((attempts lib d as w).begin 0)).2 := by
    rw [attempts, List.foldl_append]
    show attempt lib d (attempts lib d as w) ⟨env, []⟩ = _
    rw [attempt, run_nil]
  rw [hlast]
  exact (exec_of_always (fun _ => Or.inr rfl) hclean).2

/-- The page of the document as it is parsed. -/
def plainParsed : ParseResult := parsePdf ["Luật"]

/-- The worker died after the points had been written: the next execution indexes the document. -/
theorem recovers_iff_diesAfterUpsert :
    IsIndexed 3 (attempts plainChunker 3 (diesAfterUpsert.take 1 ++ [⟨plainReplies, []⟩])
      .uploaded).stores := by
  have hdocs : (attempts plainChunker 3 (diesAfterUpsert.take 1) .uploaded).stores.documents.rows =
      [{ uploadedDocument with status := .embedding, markdownKey := some "1/2/3/parsed.md" }] :=
      by decide +kernel
  have hrows : (attempts plainChunker 3 (diesAfterUpsert.take 1) .uploaded).stores.chunks.rows = [] :=
    by decide +kernel
  refine (@recovers_iff plainChunker 3 .uploaded uploaded_uploaded (diesAfterUpsert.take 1) plainReplies
    { uploadedDocument with status := .embedding, markdownKey := some "1/2/3/parsed.md" }
    [37] plainParsed [[1]] ⟨?_, rfl, ?_, rfl, ?_, ?_, ?_, ?_⟩).mpr (Or.inr ?_)
  · rw [hdocs]
    exact List.mem_singleton.mpr rfl
  · decide +kernel
  · decide +kernel
  · decide +kernel
  · decide +kernel
  · decide +kernel
  · intro r hr
    rw [hrows] at hr
    cases hr

/-- An execution in which nothing fails on its way ends with the document indexed, if it can be worked on.
-/
def Recovers (lib : ChunkerLib) (d : Uuid) (as : List Attempt) (env : JobReplies) (w : JobWorld) : Prop :=
  ∀ doc data parsed vs, Workable lib env d doc data parsed vs (attempts lib d as w).stores →
    IsIndexed d (attempts lib d (as ++ [⟨env, []⟩]) w).stores

/-- The call that publishes `indexed` fails, after the last commit. -/
def publishFails : List Attempt :=
  [⟨plainReplies, List.replicate 26 .ok ++ [.raised (.exception "ConnectionError") false]⟩]

/-- The document has its row and is marked as failed; the next execution, in which nothing fails, cannot
insert the row again. -/
theorem failed_again :
    Uploaded 3 JobWorld.uploaded.stores ∧ ¬ Recovers plainChunker 3 publishFails plainReplies .uploaded := by
  refine ⟨uploaded_uploaded, fun h => ?_⟩
  have hdocs : (attempts plainChunker 3 publishFails .uploaded).stores.documents.rows =
      [{ uploadedDocument with
        status := .failed
        nChunks := some 1
        markdownKey := some "1/2/3/parsed.md"
        error := some "ConnectionError"
        indexedAt := some 5 }] := by decide +kernel
  have hfailed : (attempts plainChunker 3 (publishFails ++ [⟨plainReplies, []⟩])
    .uploaded).stores.documents.rows.map Document.status = [.failed] := by decide +kernel
  obtain ⟨doc, hdoc, -, hst⟩ :=
    h _ [37] plainParsed [[1]] ⟨by rw [hdocs]; exact List.mem_singleton.mpr rfl, rfl,
    by decide +kernel, rfl, by decide +kernel, by decide +kernel, by decide +kernel, by decide +kernel⟩
  have hmem := List.mem_map_of_mem (f := Document.status) hdoc
  rw [hfailed, hst] at hmem
  simp at hmem

end LegalRag
