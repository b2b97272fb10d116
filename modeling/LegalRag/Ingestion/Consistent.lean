import LegalRag.Ingestion.Stages

/-!
# An indexed document is consistent

Postgres and Qdrant are written at different times, and an execution may fail or die between any two
calls.  Whatever executions have been tried one after the other, a document whose status is `indexed` has
as many rows as `n_chunks` says and as many points, and `qdrant_point_id` pairs them
(`consistent_of_attempts`).

The invariant (`Inv`) has two more parts, on which this rests: the ids of the points are used up, so that
fresh points do not overwrite others; and a document that has rows has a row with the number 0, so that
the unique constraint lets no second execution insert its rows.
-/

namespace LegalRag

open Calls Prog Relational

def rowsOf (d : Uuid) (s : Stores) : List DocumentChunk := s.chunks.rows.filter fun r => r.documentId = d

def pointsOf (d : Uuid) (s : Stores) : List Point := s.points.filter fun p => p.docId = toString d

/-- `qdrant_point_id` is a bijection from the rows onto the points, with equal chunk numbers and texts. -/
structure Paired (rows : List DocumentChunk) (points : List Point) : Prop where
  maps : ∀ r ∈ rows, ∃ p ∈ points, r.qdrantPointId = some p.id ∧ p.chunkIndex = r.chunkIndex ∧ p.text = r.text
  bijective : ∀ p ∈ points, ∃! r, r ∈ rows ∧ r.qdrantPointId = some p.id

/-- What holds of a document that is indexed. -/
structure ConsistentDoc (doc : Document) (rows : List DocumentChunk) (points : List Point) : Prop where
  nChunks : doc.nChunks = some rows.length
  length_eq : rows.length = points.length
  paired : Paired rows points

/-- If the document is indexed, its rows and points are consistent. -/
def Consistent (d : Uuid) (s : Stores) : Prop :=
  ∀ doc ∈ s.documents.rows, doc.id = d → doc.status = .indexed → ConsistentDoc doc (rowsOf d s) (pointsOf d s)

/-- The invariant of the executions on a document. -/
structure Inv (d : Uuid) (s : Stores) : Prop where
  fresh : ∀ p ∈ s.points, p.id < s.nextUuid
  first : ∀ r ∈ s.chunks.rows, r.documentId = d → ∃ r' ∈ s.chunks.rows, r'.key = (d, 0)
  consistent : Consistent d s

private theorem NotIndexed.consistent {d : Uuid} {s : Stores} (h : NotIndexed d s) : Consistent d s :=
  fun doc hdoc hid hst => absurd hst (h doc hdoc hid)

/-! ### What keeps the invariant -/

private theorem Inv.update {d : Uuid} {s : Stores} (h : Inv d s) {u : StatusUpdate}
    (hu : u.status ≠ .indexed) : Inv d (s.update d u) :=
  ⟨h.fresh, h.first, (notIndexed_update hu s).consistent⟩

private theorem Inv.withNextUuid {d : Uuid} {s : Stores} (h : Inv d s) {n : Nat} (hn : s.nextUuid ≤ n) :
    Inv d (s.withNextUuid n) :=
  ⟨fun p hp => Nat.lt_of_lt_of_le (h.fresh p hp) hn, h.first, h.consistent⟩

private theorem Inv.deletePoints {d : Uuid} {s : Stores} (h : Inv d s) (hn : NotIndexed d s)
    (docId : String) : Inv d (s.deletePoints docId) :=
  ⟨fun p hp => h.fresh p (List.mem_filter.mp hp).1, h.first, NotIndexed.consistent hn⟩

/-- Points whose ids are used up may be added while the document is not indexed. -/
private theorem Inv.addPoints {d : Uuid} {s : Stores} (h : Inv d s) (hn : NotIndexed d s)
    {points : List Point} (hp : ∀ p ∈ points, p ∈ s.points ∨ p.id < s.nextUuid) :
    Inv d { s with points := points } := by
  refine ⟨fun p hm => ?_, h.first, NotIndexed.consistent hn⟩
  rcases hp p hm with hm | hlt
  · exact h.fresh p hm
  · exact hlt

/-! ### The rows and points that an execution builds -/

private theorem paired_built (t : IndexTarget) (n : Nat) (cs : List Chunk) (vs : List Embedding) :
    Paired ((builtFrom t n cs vs).map Prod.snd) ((builtFrom t n cs vs).map Prod.fst) where
  maps r hr := by
    obtain ⟨x, hx, rfl⟩ := List.mem_map.mp hr
    obtain ⟨-, -, hid, hindex, htext⟩ := builtFrom_docs t n cs vs x hx
    exact ⟨x.1, List.mem_map_of_mem hx, hid, hindex, htext⟩
  bijective p hp := by
    obtain ⟨x, hx, rfl⟩ := List.mem_map.mp hp
    have hid := (builtFrom_docs t n cs vs x hx).2.2.1
    refine ⟨x.2, ⟨List.mem_map_of_mem hx, hid⟩, ?_⟩
    rintro r ⟨hr, hrid⟩
    obtain ⟨y, hy, rfl⟩ := List.mem_map.mp hr
    have hyid := (builtFrom_docs t n cs vs y hy).2.2.1
    have heq : y.1.id = x.1.id := by
      rw [hyid] at hrid
      exact Option.some.inj hrid
    have hnodup : ((builtFrom t n cs vs).map fun z => z.1.id).Nodup := by
      have h := (builtFrom_ids t n cs vs).2
      rwa [List.map_map] at h
    rw [List.inj_on_of_nodup_map hnodup hy hx heq]

/-- The stores are ready for the last session, with these rows. -/
structure Ready (d : Uuid) (rows : List DocumentChunk) (s : Stores) : Prop where
  inv : Inv d s
  notIndexed : NotIndexed d s
  docs : ∀ r ∈ rows, r.documentId = d
  first : ∃ r ∈ rows, r.chunkIndex = 0
  length_eq : rows.length = (pointsOf d s).length
  paired : Paired rows (pointsOf d s)

/-- After the upserts the points of the document are the ones that were built. -/
private theorem ready_built {t : IndexTarget} {s : Stores} (hi : Inv t.docId s) (hn : NotIndexed t.docId s)
    (hp : pointsOf t.docId s = []) {cs : List Chunk} {vs : List Embedding} (hlen : cs.length = vs.length)
    (hidx : cs.map Chunk.index = List.range cs.length) (hne : cs ≠ []) {m : Nat}
    (hm : m = s.nextUuid + 2 * cs.length) :
    let b := builtFrom t s.nextUuid cs vs
    (∀ bs', bs' <+: Redis.slices 128 (b.map Prod.fst) → Inv t.docId ((s.withNextUuid m).upserts bs')) ∧
      Ready t.docId (b.map Prod.snd) ((s.withNextUuid m).upserts (Redis.slices 128 (b.map Prod.fst))) := by
  intro b
  have hle : s.nextUuid ≤ m := by
    rw [hm]
    exact Nat.le_add_right _ _
  have hflat : (Redis.slices 128 (b.map Prod.fst)).flatten = b.map Prod.fst := Redis.flatten_slices (by omega) _
  obtain ⟨hids, hnodup⟩ := builtFrom_ids t s.nextUuid cs vs
  -- the points after some of the batches
  have hpts : ∀ bs', bs' <+: Redis.slices 128 (b.map Prod.fst) →
      ((s.withNextUuid m).upserts bs').points = s.points ++ bs'.flatten ∧ ∀ p ∈ bs'.flatten,
        p ∈ b.map Prod.fst := by
    intro bs' hpre
    have hsub : bs'.flatten <+: b.map Prod.fst := by
      obtain ⟨rest, hrest⟩ := hpre
      refine ⟨rest.flatten, ?_⟩
      rw [← List.flatten_append, hrest, hflat]
    have hmem : ∀ p ∈ bs'.flatten, p ∈ b.map Prod.fst := fun p hp => hsub.subset hp
    refine ⟨upserts_points ?_ (hnodup.sublist (hsub.sublist.map Point.id)), hmem⟩
    intro p hp q hq he
    have h1 : s.nextUuid ≤ q.id := (hids q (hmem q hq)).1
    have h2 : p.id < s.nextUuid := hi.fresh p hp
    rw [he] at h1
    exact absurd h2 (Nat.not_lt.mpr h1)
  have hinv : ∀ bs', bs' <+: Redis.slices 128 (b.map Prod.fst) →
      Inv t.docId ((s.withNextUuid m).upserts bs') := by
    intro bs' hpre
    obtain ⟨heq, hmem⟩ := hpts bs' hpre
    rw [upserts_eq]
    refine Inv.addPoints (hi.withNextUuid hle) hn fun p hp => ?_
    rw [heq, List.mem_append] at hp
    rcases hp with hp | hp
    · exact Or.inl hp
    · right
      show p.id < m
      rw [hm]
      exact (hids p (hmem p hp)).2
  refine ⟨hinv, ?_⟩
  have hdocs := builtFrom_docs t s.nextUuid cs vs
  have hpoints : pointsOf t.docId ((s.withNextUuid m).upserts (Redis.slices 128 (b.map Prod.fst))) =
      b.map Prod.fst := by
    rw [pointsOf, (hpts _ List.prefix_rfl).1, List.filter_append, hflat]
    have hnil : (s.points.filter fun p => decide (p.docId = toString t.docId)) = [] := hp
    rw [hnil, List.nil_append]
    refine List.filter_eq_self.mpr fun p hp => ?_
    obtain ⟨x, hx, rfl⟩ := List.mem_map.mp hp
    simp [(hdocs x hx).1]
  refine ⟨hinv _ List.prefix_rfl, ?_, ?_, ?_, ?_, ?_⟩
  · rw [upserts_eq]
    exact hn
  · intro r hr
    obtain ⟨x, hx, rfl⟩ := List.mem_map.mp hr
    exact (hdocs x hx).2.1
  · have hrows := (builtFrom_rows t s.nextUuid hlen).1
    have hzero : 0 ∈ (b.map Prod.snd).map DocumentChunk.chunkIndex := by
      rw [hrows, hidx, List.mem_range]
      exact List.length_pos_of_ne_nil hne
    exact List.mem_map.mp hzero
  · rw [hpoints]
    simp
  · rw [hpoints]
    exact paired_built t s.nextUuid cs vs

/-- The last session makes the document consistent: had it had rows before, the insert would have failed.
-/
private theorem inv_final {d : Uuid} {rows : List DocumentChunk} {clock : Nat} {s s' : Stores}
    (hr : Ready d rows s)
    (h : s.applyAll [.insertChunks rows, .updateDocument d (indexedUpdate rows.length clock)] = some s') :
    Inv d s' := by
  obtain ⟨hrows, hpts, hnext, hdocs⟩ := applyAll_final h
  obtain ⟨r₀, hr₀, hzero⟩ := hr.first
  have hkey : r₀.key = (d, 0) := by rw [DocumentChunk.key, hr.docs r₀ hr₀, hzero]
  -- no rows before
  have hnone : rowsOf d s = [] := by
    refine List.filter_eq_nil_iff.mpr fun r hm => ?_
    rw [decide_eq_true_eq]
    intro hd
    obtain ⟨r', hr', hkey'⟩ := hr.inv.first r hm hd
    have hunique := s'.chunks.unique
    rw [hrows, List.map_append, List.nodup_append] at hunique
    exact hunique.2.2 _ (List.mem_map_of_mem hr') _ (List.mem_map_of_mem hr₀) (hkey'.trans hkey.symm)
  have hrowsOf : rowsOf d s' = rows := by
    rw [rowsOf, hrows, List.filter_append]
    have hnil : (s.chunks.rows.filter fun r => decide (r.documentId = d)) = [] := hnone
    rw [hnil, List.nil_append]
    exact List.filter_eq_self.mpr fun r hm => by simp [hr.docs r hm]
  have hpointsOf : pointsOf d s' = pointsOf d s := by rw [pointsOf, pointsOf, hpts]
  refine ⟨?_, ?_, ?_⟩
  · intro p hp
    rw [hpts] at hp
    rw [hnext]
    exact hr.inv.fresh p hp
  · intro r _ _
    refine ⟨r₀, ?_, hkey⟩
    rw [hrows]
    exact List.mem_append_right _ hr₀
  · intro doc hdoc hid _
    rw [hdocs] at hdoc
    obtain ⟨doc', -, rfl⟩ := List.mem_map.mp hdoc
    have hid' : doc'.id = d := by
      rw [← hid]
      exact ((indexedUpdate rows.length clock).apply_key d doc').symm
    rw [hrowsOf, hpointsOf]
    refine ⟨?_, hr.length_eq, hr.paired⟩
    simp [StatusUpdate.apply, hid', indexedUpdate]

/-! ### The stages -/

variable {pid : Nat} {env : JobReplies} {lib : ChunkerLib} {d : Uuid}

/-- Nothing is said about how a program ends. -/
abbrev Anyhow {α : Type} (_ : Except JobErr α) (_ : Stores) : Prop := True

/-- There is work to do. -/
def Working (d : Uuid) (s : Stores) : Prop := Inv d s ∧ NotIndexed d s

private theorem Working.update {s : Stores} (h : Working d s) {u : StatusUpdate} (hu : u.status ≠ .indexed) :
    Working d (s.update d u) := ⟨h.1.update hu, notIndexed_update hu s⟩

/-- `set_status` on the way. -/
private theorem spec_progress {st : DocStatus} (hst : st ≠ .indexed) (error : Option String)
    (nChunks : Option Nat) (markdownKey : Option String) :
    Spec true pid env (Inv d) (Working d) (sessionScope (setStatus d st error nChunks markdownKey)) fun _ s =>
      Working d s := by
  have hw : ∀ s, Working d s → Working d (s.update d ⟨st, error, nChunks, markdownKey, none⟩) :=
    fun s hs => hs.update hst
  exact spec_setStatus hst d error nChunks markdownKey (fun s hs => ⟨hs.1, (hw s hs).1⟩) hw
    fun _ e s hs => ⟨hs, hw s hs⟩

private theorem spec_publish_working (e : StatusEvent) :
    Spec true pid env (Inv d) (Working d) (publishStatus d e) fun _ s => Working d s :=
  spec_publish d e (fun _ hs => hs.1) (fun _ hs => hs) fun _ _ _ hs => hs

private theorem spec_indexChunks {t : IndexTarget} {cs : List Chunk}
    (hidx : cs.map Chunk.index = List.range cs.length) (hne : cs ≠ []) :
    Spec true pid env (Inv t.docId) (fun s => Working t.docId s ∧ pointsOf t.docId s = []) (indexChunks cs t)
      fun r s => ∀ rows, r = .ok rows → Ready t.docId rows s := by
  refine spec_of_forall fun s hs => ?_
  obtain ⟨⟨hi, hn⟩, hp⟩ := hs
  have herr : ∀ (e : JobErr) (u : Stores), ∀ rows,
    (.error e : Except JobErr (List DocumentChunk)) = .ok rows → Ready t.docId rows u := by
    rintro e u rows hrows
    cases hrows
  rw [indexChunks, if_neg (by simpa using hne)]
  refine spec_step (o := .embed (cs.map Chunk.text)) (env.embed (cs.map Chunk.text)) s (fun _ _ => rfl)
    (fun _ hw => hw) hi hi (fun vs _ => ?_) (fun e _ => herr e s) fun _ e => ⟨herr e s, herr e s⟩
  refine spec_bind (spec_buildPoints t cs vs s fun m hm => hi.withNextUuid hm)
    (fun b => ?_) fun e u _ _ => herr e u
  refine spec_of_forall fun u hu => ?_
  obtain ⟨⟨m, -, rfl⟩, hb, -⟩ := hu
  obtain ⟨rfl, hm, hlen⟩ := hb b rfl
  obtain ⟨hinv, hready⟩ := ready_built hi hn hp hlen hidx hne hm
  refine spec_bind (spec_upsertAll _ _ hinv) (fun _ => spec_done ?_ ?_) fun e u _ _ => herr e u
  · rintro u ⟨-, hu, -⟩
    rw [hu () rfl]
    exact hready.inv
  · rintro u ⟨-, hu, -⟩ rows hrows
    cases hrows
    rw [hu () rfl]
    exact hready

/-- The last session, when the stores are ready for it. -/
private theorem spec_final (rows : List DocumentChunk) :
    Spec true pid env (Inv d) (Ready d rows) (sessionScope (finalBody d rows)) Anyhow := by
  refine spec_scope (fun s _ => collects_final d rows s) (fun s hs => hs.inv) ?_ (fun _ _ _ _ _ _ => trivial)
    (fun _ _ _ _ _ => trivial) fun _ _ _ _ _ _ => trivial
  intro s a sts s' hs hk hc
  rw [hk.1 a rfl] at hc
  exact ⟨inv_final hs hc, trivial⟩

private theorem spec_indexStage {doc : Document} {cs : List Chunk}
    (hidx : cs.map Chunk.index = List.range cs.length)
    (hne : cs ≠ []) : Spec true pid env (Inv d) (Working d) (indexStage d doc cs) Anyhow := by
  refine spec_bind (spec_progress (by decide) none none none) (fun _ => ?_) fun _ _ _ _ => trivial
  refine spec_bind (spec_publish_working _) (fun _ => ?_) fun _ _ _ _ => trivial
  have hdelete : Spec true pid env (Inv d) (Working d) (deleteDocVectors d) fun r s =>
      ∀ a, r = .ok a → Working d s ∧ pointsOf d s = [] := by
    refine spec_call (fun _ => .ok ()) (Stores.deletePoints (toString d)) (fun _ => rfl) (fun _ => rfl)
      (fun s hs => ⟨hs.1, hs.1.deletePoints hs.2 _⟩) ?_ ?_
    · intro s hs a _
      refine ⟨⟨hs.1.deletePoints hs.2 _, hs.2⟩, ?_⟩
      refine List.filter_eq_nil_iff.mpr fun p hp => ?_
      simpa using (List.mem_filter.mp hp).2
    · rintro - e s -
      constructor <;> rintro a ha <;> cases ha
  refine spec_bind hdelete (fun _ => ?_) fun _ _ _ _ => trivial
  have hindex := @spec_indexChunks pid env ⟨d, doc.userId, doc.tenantId, doc.title⟩ cs hidx hne
  refine spec_bind (hindex.mono (fun s hs => hs () rfl) fun _ _ _ h => h) (fun rows => ?_) fun _ _ _ _ =>
    trivial
  have hfinal := @spec_final pid env d rows
  refine spec_bind (hfinal.mono (fun s hs => hs rows rfl) fun _ _ hi _ => hi) (fun _ => ?_) fun _ _ _ _ =>
    trivial
  have hpublish : ∀ e, Spec true pid env (Inv d) (Inv d) (publishStatus d e) fun _ s => Inv d s :=
    fun e => spec_publish d e (fun _ hs => hs) (fun _ hs => hs) fun _ _ _ hs => hs
  refine spec_bind (hpublish _) (fun _ => ?_) fun _ _ _ _ => trivial
  exact spec_done (fun _ hs => hs) fun _ _ => trivial

private theorem spec_chunkStage {doc : Document} :
    Spec true pid env (Inv d) (Working d) (chunkStage lib d doc) fun r s =>
      ∀ cs, r = .ok cs → Working d s ∧ cs.map Chunk.index = List.range cs.length ∧ cs ≠ [] := by
  have herr : ∀ (e : JobErr) (u : Stores), ∀ cs, (.error e : Except JobErr (List Chunk)) = .ok cs →
      Working d u ∧ cs.map Chunk.index = List.range cs.length ∧ cs ≠ [] := by
    rintro e u cs hcs
    cases hcs
  refine spec_of_forall fun s hs => ?_
  refine spec_step (o := .getObject doc.storageKey) (s.fetch doc.storageKey) s (by rintro w rfl; rfl)
    (fun _ hw => hw) hs.1 hs.1 (fun data _ => ?_) (fun e _ => herr e s) fun _ e => ⟨herr e s, herr e s⟩
  refine spec_step (o := .parseFile data doc.mimeType doc.title) (env.parse data doc.mimeType doc.title) s
    (fun _ _ => rfl) (fun _ hw => hw) hs.1 hs.1 (fun parsed _ => ?_) (fun e _ => herr e s)
    fun _ e => ⟨herr e s, herr e s⟩
  have hput : Working d (s.put (markdownKeyOf doc.storageKey) parsed.markdown.toUTF8.toList) :=
    ⟨⟨hs.1.fresh, hs.1.first, hs.1.consistent⟩, hs.2⟩
  refine spec_ok () _ (fun _ _ => rfl) (by rintro w rfl; rfl) hs.1 hput.1 ?_ fun _ e =>
    ⟨herr e _, herr e _⟩
  refine Spec.mono (Q := Working d) ?_ (fun u hu => by rw [hu]; exact hput) fun _ _ _ h => h
  refine spec_bind (spec_progress (by decide) none none (some (markdownKeyOf doc.storageKey))) (fun _ => ?_)
    fun e u _ _ => herr e u
  refine spec_bind (spec_publish_working _) (fun _ => ?_) fun e u _ _ => herr e u
  by_cases hnil : (chunksOf lib parsed).isEmpty
  · rw [if_pos hnil]
    exact spec_done (fun _ hs => hs.1) fun u _ => herr _ u
  · rw [if_neg hnil]
    refine spec_done (fun _ hs => hs.1) ?_
    rintro u hu cs hcs
    cases hcs
    exact ⟨hu, chunkDocument_index lib 800 100 parsed, by simpa using hnil⟩

private theorem spec_failJob (text : String) : Spec true pid env (Inv d) (Inv d) (failJob d text) Anyhow := by
  have hset : Spec true pid env (Inv d) (Inv d)
    (sessionScope (setStatus d .failed (some (cut 2000 text)) none none)) fun _ s => Inv d s :=
    spec_setStatus (by decide) d _ none none (fun s hs => ⟨hs, hs.update (by simp)⟩)
      (fun s hs => hs.update (by simp)) fun _ e s hs => ⟨hs, hs.update (by simp)⟩
  refine spec_bind hset (fun _ => ?_) fun _ _ _ _ => trivial
  have hpublish : ∀ e, Spec true pid env (Inv d) (Inv d) (publishStatus d e) fun _ s => Inv d s :=
    fun e => spec_publish d e (fun _ hs => hs) (fun _ hs => hs) fun _ _ _ hs => hs
  refine spec_bind (hpublish _) (fun _ => ?_) fun _ _ _ _ => trivial
  exact spec_done (fun _ hs => hs) fun _ _ => trivial

private theorem spec_beginJob : Spec true pid env (Inv d) (Inv d) (beginJob d) fun r s =>
      Inv d s ∧ ∀ doc, r = .ok (.inr doc) → Working d s := by
  have herr : ∀ (e : JobErr) (u : Stores), Inv d u →
      Inv d u ∧ ∀ doc, (.error e : Except JobErr (JobResult ⊕ Document)) = .ok (.inr doc) → Working d u := by
    rintro e u hu
    refine ⟨hu, ?_⟩
    rintro doc hdoc
    cases hdoc
  -- either nothing is collected, or the status `parsing`
  have hbody : ∀ s, Inv d s → Collects true pid env s (beginBody d)
      fun r sts => ∀ x, r = .ok x → sts = [] ∧ (∀ doc, x ≠ .inr doc) ∨
        sts = [.updateDocument d ⟨.parsing, none, none, none, none⟩] := by
    intro s _
    have hfail : ∀ (e : JobErr) (sts : List Stmt), CollectsFrom true pid env s sts
        (.done (.error e) : JobProg (JobResult ⊕ Document)) fun r sts => ∀ x, r = .ok x →
          sts = [] ∧ (∀ doc, x ≠ .inr doc) ∨
          sts = [.updateDocument d ⟨.parsing, none, none, none, none⟩] := by
      refine fun e sts => collects_done ?_
      rintro x hx
      cases hx
    refine collects_call (s.documents.rows.find? fun doc => doc.key = d) []
      (fun w hs hp => ⟨by rw [← hs]; rfl, hs, by simpa [jobReply, JobWorld.setExecution] using hp⟩) ?_
      fun _ e sts' => hfail e sts'
    cases s.documents.rows.find? fun doc => doc.key = d with
    | none =>
      refine collects_done ?_
      rintro x hx
      cases hx
      exact Or.inl ⟨rfl, by simp⟩
    | some doc =>
      show CollectsFrom true pid env s [] (if doc.status = .indexed then pure (.inl .alreadyIndexed)
          else setStatus d .parsing none none none >>= fun _ =>
            pure (.inr doc) : JobProg (JobResult ⊕ Document)) _
      by_cases hst : doc.status = .indexed
      · rw [if_pos hst]
        refine collects_done ?_
        rintro x hx
        cases hx
        exact Or.inl ⟨rfl, by simp⟩
      · rw [if_neg hst]
        refine collects_call () [.updateDocument d ⟨.parsing, none, none, none, none⟩]
          (fun w hs hp => statement_accepted hs hp rfl) (collects_done ?_) fun _ e sts' => hfail e sts'
        exact fun _ _ => Or.inr rfl
  have happly : ∀ s s', Inv d s → s.applyAll [.updateDocument d ⟨.parsing, none, none, none, none⟩] =
    some s' → Working d s' := by
    intro s s' hs hc
    obtain rfl : s.update d ⟨.parsing, none, none, none, none⟩ = s' := by
      simpa [Stores.applyAll, Stores.applyStmt] using hc
    exact ⟨hs.update (by decide), notIndexed_update (by decide) s⟩
  refine spec_scope hbody (fun _ hs => hs) ?_ (fun s _ _ hs _ _ => herr _ s hs)
    (fun s e _ hs _ => herr e s hs) ?_
  · intro s x sts s' hs hk hc
    rcases hk x rfl with ⟨rfl, hx⟩ | rfl
    · obtain rfl : s = s' := by simpa [Stores.applyAll] using hc
      refine ⟨hs, hs, ?_⟩
      rintro doc hdoc
      exact absurd (Except.ok.inj hdoc) (hx doc)
    · have hw := happly s s' hs hc
      exact ⟨hw.1, hw.1, fun _ _ => hw⟩
  · rintro - s e s' hs (rfl | ⟨x, sts, hk, hc⟩)
    · exact herr e s' hs
    · rcases hk x rfl with ⟨rfl, -⟩ | rfl
      · obtain rfl : s = s' := by simpa [Stores.applyAll] using hc
        exact herr e s hs
      · exact herr e s' (happly s s' hs hc).1

/-- An execution keeps the invariant after each of its calls, whatever fails. -/
private theorem spec_processDocument : Spec true pid env (Inv d) (Inv d) (processDocument lib d) Anyhow := by
  refine spec_bind spec_beginJob (fun r => ?_) fun _ _ _ _ => trivial
  cases r with
  | inl r => exact spec_done (fun _ hs => hs.1) fun _ _ => trivial
  | inr doc =>
    refine Spec.mono (Q := Working d) ?_ (fun s hs => hs.2 doc rfl) fun _ _ _ h => h
    refine spec_bind (spec_publish_working _) (fun _ => ?_) fun _ _ _ _ => trivial
    have hstages : Spec true pid env (Inv d) (Working d)
        (do
          let chunks ← chunkStage lib d doc
          indexStage d doc chunks) fun _ s => Inv d s := by
      have hstage : Spec true pid env (Inv d) (Working d)
          (do
            let chunks ← chunkStage lib d doc
            indexStage d doc chunks) Anyhow := by
        refine spec_bind spec_chunkStage (fun cs => ?_) fun _ _ _ _ => trivial
        refine spec_of_forall fun s hs => ?_
        obtain ⟨hw, hidx, hne⟩ := hs cs rfl
        exact (spec_indexStage hidx hne).mono (fun u hu => by rw [hu]; exact hw) fun _ _ _ h => h
      exact hstage.mono (fun _ hs => hs) fun _ _ hi _ => hi
    exact spec_except hstages (fun _ _ _ => trivial) (fun _ _ => trivial) fun text => spec_failJob text

/-! ### Executions one after the other -/

/-- One execution of the job: what its parser and its embedding model reply, and how its calls end. -/
structure Attempt where
  env : JobReplies
  outs : List (Outcome JobErr)

/-- The world after an execution has ended, or has died. -/
def attempt (lib : ChunkerLib) (d : Uuid) (w : JobWorld) (a : Attempt) : JobWorld :=
  ((processDocument lib d).run (jobHandler 0 a.env) a.outs (w.begin 0)).2

/-- The world after executions one after the other. -/
def attempts (lib : ChunkerLib) (d : Uuid) (as : List Attempt) (w : JobWorld) : JobWorld :=
  as.foldl (attempt lib d) w

/-- A document that has been uploaded and not yet worked on. -/
structure Uploaded (d : Uuid) (s : Stores) : Prop where
  notIndexed : NotIndexed d s
  rows : rowsOf d s = []
  points : pointsOf d s = []
  fresh : ∀ p ∈ s.points, p.id < s.nextUuid

theorem Uploaded.inv {s : Stores} (h : Uploaded d s) : Inv d s where
  fresh := h.fresh
  first r hr hd := by
    have hmem : r ∈ rowsOf d s := List.mem_filter.mpr ⟨hr, by simpa using hd⟩
    rw [h.rows] at hmem
    cases hmem
  consistent := h.notIndexed.consistent

private theorem inv_attempt {w : JobWorld} (h : Inv d w.stores) (a : Attempt) :
    Inv d (attempt lib d w a).stores := by
  have hspec := @spec_processDocument 0 a.env lib d (w.begin 0) h
  exact (always_run a.outs (legal_of_all (fun _ _ => Or.inl rfl) _ _ _) hspec).1

theorem inv_attempts {w : JobWorld} (h : Inv d w.stores) (as : List Attempt) :
    Inv d (attempts lib d as w).stores := by
  induction as generalizing w with
  | nil => exact h
  | cons a as ih => exact ih (inv_attempt h a)

/-- Whatever executions have been tried on an uploaded document, one after the other, each ending well,
with an exception or with the death of the worker at any of its calls: if its status is `indexed`,
`n_chunks` is the number of its rows and of its points, and `qdrant_point_id` is a bijection between them.
-/
theorem consistent_of_attempts (lib : ChunkerLib) (d : Uuid) (as : List Attempt) (w : JobWorld)
    (h : Uploaded d w.stores) : Consistent d (attempts lib d as w).stores :=
  (inv_attempts h.inv as).consistent

theorem uploaded_uploaded : Uploaded 3 JobWorld.uploaded.stores := by
  refine ⟨?_, rfl, rfl, by simp [JobWorld.uploaded]⟩
  intro doc hdoc _
  obtain rfl : doc = uploadedDocument := by simpa [JobWorld.uploaded] using hdoc
  decide

/-- The worker dies after the points have been written; the job is delivered again and succeeds. -/
def diesAfterUpsert : List Attempt :=
  [⟨plainReplies, List.replicate 22 .ok ++ [.crashed true]⟩, ⟨plainReplies, []⟩]

theorem consistent_of_attempts_diesAfterUpsert :
    (attempts plainChunker 3 (diesAfterUpsert.take 1) .uploaded).stores.points.length = 1 ∧
    (attempts plainChunker 3 diesAfterUpsert .uploaded).stores.documents.rows.map
      (fun doc => (doc.status, doc.nChunks)) =
      [(.indexed, some 1)] ∧ Consistent 3 (attempts plainChunker 3 diesAfterUpsert .uploaded).stores := by
  exact ⟨by decide +kernel, by decide +kernel,
    consistent_of_attempts plainChunker 3 diesAfterUpsert _ uploaded_uploaded⟩

end LegalRag
