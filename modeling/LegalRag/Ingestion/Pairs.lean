import LegalRag.Calls.Transcript
import LegalRag.Ingestion.Stages
import LegalRag.Llm.Batches

/-!
# Rows, vectors and points

What `index_chunks` says to the embedding model and to Qdrant, and the rows that it returns, whatever
world it runs in and whichever of its calls fail (`index_chunks_pairs`).  The embedding model is one that
returns a vector for each text, as the client of this repository does (`oneVectorEach_client`).
-/

namespace LegalRag

open Calls Prog

/-- A call of a job and its reply. -/
abbrev JobExchange := Exchange JobCalls JobErr

/-! ### What is read off the calls -/

/-- The texts that are sent to the embedding model. -/
def textsIn (xs : List JobExchange) : List String :=
  xs.flatMap fun x =>
    match x.op with
    | .embed texts => texts
    | _ => []

/-- The vectors that the embedding model returns. -/
def vectorsIn (xs : List JobExchange) : List Embedding :=
  xs.flatMap fun
    | ⟨.embed _, some (.ok vectors)⟩ => vectors
    | _ => []

/-- The new UUIDs. -/
def uuidsIn (xs : List JobExchange) : List Uuid :=
  xs.flatMap fun
    | ⟨.uuid4, some (.ok id)⟩ => [id]
    | _ => []

/-- The batches that are sent to Qdrant. -/
def batchesIn (xs : List JobExchange) : List (List Point) :=
  xs.flatMap fun x =>
    match x.op with
    | .upsert points => [points]
    | _ => []

/-- The points that are sent to Qdrant. -/
def pointsIn (xs : List JobExchange) : List Point := (batchesIn xs).flatten

section Reading

variable {xs ys zs : List JobExchange}

private theorem textsIn_append : textsIn (xs ++ ys) = textsIn xs ++ textsIn ys := List.flatMap_append

private theorem vectorsIn_append : vectorsIn (xs ++ ys) = vectorsIn xs ++ vectorsIn ys := List.flatMap_append

private theorem uuidsIn_append : uuidsIn (xs ++ ys) = uuidsIn xs ++ uuidsIn ys := List.flatMap_append

private theorem batchesIn_append : batchesIn (xs ++ ys) = batchesIn xs ++ batchesIn ys := List.flatMap_append

/-- While UUIDs are drawn. -/
private theorem read_uuids (hys : ∀ y ∈ ys, y.op = .uuid4) :
    textsIn ys = [] ∧ vectorsIn ys = [] ∧ batchesIn ys = [] := by
  refine ⟨List.flatMap_eq_nil_iff.mpr fun y hy => ?_, List.flatMap_eq_nil_iff.mpr fun y hy => ?_,
    List.flatMap_eq_nil_iff.mpr fun y hy => ?_⟩
  all_goals
    obtain ⟨op, reply⟩ := y
    obtain rfl : op = .uuid4 := hys _ hy
    rfl

/-- While Qdrant is called. -/
private theorem read_upserts (hzs : ∀ z ∈ zs, ∃ points, z.op = .upsert points) :
    textsIn zs = [] ∧ vectorsIn zs = [] ∧ uuidsIn zs = [] := by
  refine ⟨List.flatMap_eq_nil_iff.mpr fun z hz => ?_, List.flatMap_eq_nil_iff.mpr fun z hz => ?_,
    List.flatMap_eq_nil_iff.mpr fun z hz => ?_⟩
  all_goals
    obtain ⟨op, reply⟩ := z
    obtain ⟨points, rfl⟩ : ∃ points, op = .upsert points := hzs _ hz
    rfl

/-- The model returns vectors for texts. -/
def embedded (texts : List String) (vectors : List Embedding) : JobExchange :=
  ⟨.embed texts, some (.ok vectors)⟩

/-- The calls of a run: of the model, for the UUIDs, and of Qdrant. -/
def stages (texts : List String) (vectors : List Embedding) (ys zs : List JobExchange) :
    List JobExchange := embedded texts vectors :: (ys ++ zs)

private theorem read_stages (texts : List String) (vectors : List Embedding) (hys : ∀ y ∈ ys, y.op = .uuid4)
    (hzs : ∀ z ∈ zs, ∃ points, z.op = .upsert points) :
    textsIn (stages texts vectors ys zs) = texts ∧ vectorsIn (stages texts vectors ys zs) = vectors ∧
      uuidsIn (stages texts vectors ys zs) = uuidsIn ys ∧
      batchesIn (stages texts vectors ys zs) = batchesIn zs := by
  obtain ⟨hytexts, hyvectors, hybatches⟩ := read_uuids hys
  obtain ⟨hztexts, hzvectors, hzuuids⟩ := read_upserts hzs
  refine ⟨?_, ?_, ?_, ?_⟩
  · show texts ++ textsIn (ys ++ zs) = texts
    simp only [textsIn_append, hytexts, hztexts, List.append_nil]
  · show vectors ++ vectorsIn (ys ++ zs) = vectors
    simp only [vectorsIn_append, hyvectors, hzvectors, List.append_nil]
  · show uuidsIn (ys ++ zs) = uuidsIn ys
    simp only [uuidsIn_append, hzuuids, List.append_nil]
  · show batchesIn (ys ++ zs) = batchesIn zs
    simp only [batchesIn_append, hybatches, List.nil_append]

end Reading

/-! ### A chunk, its point and its row -/

/-- The point has this vector and the payload of this chunk. -/
structure Point.Describes (t : IndexTarget) (c : Chunk) (v : Embedding) (p : Point) : Prop where
  vector : p.vector = v
  text : p.text = c.text
  index : p.chunkIndex = c.index
  heading : p.headingPath = c.headingPath
  pages : p.pageFrom = c.pageFrom ∧ p.pageTo = c.pageTo
  tokens : p.nTokens = c.nTokens
  owner : p.docId = toString t.docId ∧ p.userId = toString t.userId ∧ p.tenantId = toString t.tenantId
  title : p.docTitle = t.docTitle

/-- The row has the id of this point, and the same payload. -/
structure DocumentChunk.RefersTo (t : IndexTarget) (p : Point) (row : DocumentChunk) : Prop where
  pointId : row.qdrantPointId = some p.id
  document : row.documentId = t.docId
  text : row.text = p.text
  index : row.chunkIndex = p.chunkIndex
  heading : row.headingPath = p.headingPath
  pages : row.pageFrom = p.pageFrom ∧ row.pageTo = p.pageTo
  tokens : row.nTokens = p.nTokens

private theorem pointOf_describes (t : IndexTarget) (id : Uuid) (c : Chunk) (v : Embedding) :
    (pointOf t id c v).Describes t c v :=
  ⟨rfl, rfl, rfl, rfl, ⟨rfl, rfl⟩, rfl, ⟨rfl, rfl, rfl⟩, rfl⟩

private theorem rowOf_refersTo (t : IndexTarget) (id rowId : Uuid) (c : Chunk) (v : Embedding) :
    (rowOf t id rowId c).RefersTo t (pointOf t id c v) :=
  ⟨rfl, rfl, rfl, rfl, rfl, ⟨rfl, rfl⟩, rfl⟩

/-! ### The loops -/

/-- What the loop over the chunks and vectors has built. -/
structure PairsBuilt (t : IndexTarget) (cs : List Chunk) (vs : List Embedding) (xs : List JobExchange)
    (built : List (Point × DocumentChunk)) : Prop where
  points : List.Forall₂ (fun cv pr => pr.1.Describes t cv.1 cv.2) (cs.zip vs) built
  rows : ∀ pr ∈ built, pr.2.RefersTo t pr.1
  ids : (built.map fun pr => pr.1.id).Sublist (uuidsIn xs)

private theorem PairsBuilt.cons {t : IndexTarget} {cs : List Chunk} {vs : List Embedding}
    {xs : List JobExchange} {built : List (Point × DocumentChunk)} (h : PairsBuilt t cs vs xs built)
    (c : Chunk) (v : Embedding) (id rowId : Uuid) :
    PairsBuilt t (c :: cs) (v :: vs) (⟨.uuid4, some (.ok id)⟩ :: ⟨.uuid4, some (.ok rowId)⟩ :: xs)
      ((pointOf t id c v, rowOf t id rowId c) :: built) := by
  refine ⟨List.Forall₂.cons (pointOf_describes t id c v) h.points, ?_, ?_⟩
  · intro pr hpr
    rcases List.mem_cons.mp hpr with rfl | hpr
    · exact rowOf_refersTo t id rowId c v
    · exact h.rows pr hpr
  · show (id :: built.map fun pr => pr.1.id).Sublist (id :: rowId :: uuidsIn xs)
    exact (h.ids.cons rowId).cons_cons id

/-- What is said in the loop over the chunks and vectors. -/
structure BuildTells (t : IndexTarget) (cs : List Chunk) (vs : List Embedding) (xs : List JobExchange)
    (r : Option (Except JobErr (List (Point × DocumentChunk)))) : Prop where
  calls : ∀ x ∈ xs, x.op = .uuid4
  built : ∀ b, r = some (.ok b) → PairsBuilt t cs vs xs b
  concludes : Concludes xs r

private theorem buildPoints_tells (R : (o : JobCalls.Op) → JobCalls.Resp o → Prop) (t : IndexTarget)
    {cs : List Chunk} {vs : List Embedding} (hlength : vs.length = cs.length) :
    (buildPoints t cs vs).Tells R (BuildTells t cs vs) := by
  induction cs generalizing vs with
  | nil =>
    obtain rfl := List.length_eq_zero_iff.mp hlength
    refine ⟨fun x hx => absurd hx List.not_mem_nil, fun b hb => ?_, concludes_done _⟩
    cases hb
    exact ⟨List.Forall₂.nil, fun pr hpr => absurd hpr List.not_mem_nil, List.nil_sublist _⟩
  | cons c cs ih =>
    cases vs with
    | nil => cases hlength
    | cons v vs =>
      have hhead : ∀ reply : Option (Except JobErr (JobCalls.Resp .uuid4)),
          ∀ x ∈ [(⟨.uuid4, reply⟩ : JobExchange)], x.op = .uuid4 := by
        intro reply
        exact List.forall_mem_singleton.mpr rfl
      -- the id of the point is drawn, then that of the row
      refine tells_call ⟨hhead none, nofun, concludes_crash _⟩
        (fun e => ⟨hhead _, nofun, concludes_error _ e⟩) fun id _ => ?_
      have htwo : ∀ reply : Option (Except JobErr (JobCalls.Resp .uuid4)),
          ∀ x ∈ [(⟨.uuid4, some (.ok id)⟩ : JobExchange), ⟨.uuid4, reply⟩], x.op = .uuid4 := by
        intro reply
        exact List.forall_mem_cons.mpr ⟨rfl, hhead reply⟩
      refine tells_call ⟨htwo none, nofun, (concludes_crash _).cons _ id⟩
        (fun e => ⟨htwo _, nofun, (concludes_error _ e).cons _ id⟩) fun rowId _ => ?_
      refine tells_map _ ((ih (Nat.succ.inj hlength)).mono fun xs r h => ?_)
      refine ⟨?_, fun b hb => ?_, ((h.concludes.map _).cons _ rowId).cons _ id⟩
      · exact List.forall_mem_cons.mpr ⟨rfl, List.forall_mem_cons.mpr ⟨rfl, h.calls⟩⟩
      · obtain ⟨rest, hrest, rfl⟩ := ok_of_map hb
        exact (h.built rest hrest).cons c v id rowId

/-- What is said in the loop over the batches. -/
structure UpsertTells (bs : List (List Point)) (xs : List JobExchange)
    (r : Option (Except JobErr Unit)) : Prop where
  calls : ∀ x ∈ xs, ∃ points, x.op = .upsert points
  sent : batchesIn xs <+: bs
  complete : ∀ u, r = some (.ok u) → batchesIn xs = bs
  concludes : Concludes xs r

private theorem upsertAll_tells (R : (o : JobCalls.Op) → JobCalls.Resp o → Prop) (bs : List (List Point)) :
    (upsertAll bs).Tells R (UpsertTells bs) := by
  induction bs with
  | nil =>
    exact ⟨fun x hx => absurd hx List.not_mem_nil, List.prefix_rfl, fun _ _ => rfl, concludes_done _⟩
  | cons b bs ih =>
    have hhead : ∀ reply : Option (Except JobErr (JobCalls.Resp (.upsert b))),
        ∀ x ∈ [(⟨.upsert b, reply⟩ : JobExchange)], ∃ points, x.op = .upsert points := by
      intro reply
      exact List.forall_mem_singleton.mpr ⟨b, rfl⟩
    have hfirst : [b] <+: b :: bs := ⟨bs, rfl⟩
    refine tells_call ⟨hhead none, hfirst, nofun, concludes_crash _⟩
      (fun e => ⟨hhead _, hfirst, nofun, concludes_error _ e⟩) fun u _ => ?_
    refine ih.mono fun xs r h => ⟨?_, ?_, fun u' hu' => ?_, h.concludes.cons _ u⟩
    · exact List.forall_mem_cons.mpr ⟨⟨b, rfl⟩, h.calls⟩
    · show b :: batchesIn xs <+: b :: bs
      exact (List.prefix_cons_inj b).mpr h.sent
    · show b :: batchesIn xs = b :: bs
      rw [h.complete u' hu']

/-! ### The whole call -/

/-- The embedding model returns a vector for each text. -/
def OneVectorEach {W : Type} (h : Handler JobCalls JobErr W) : Prop :=
  ∀ texts w vectors, (h (.embed texts) w).1 = .ok vectors → vectors.length = texts.length

/-- The replies of such a model. -/
def vectorEach : (o : JobCalls.Op) → JobCalls.Resp o → Prop
  | .embed texts, vectors => vectors.length = texts.length
  | _, _ => True

/-- What `index_chunks` says and returns, as far as it comes. -/
structure IndexTells (t : IndexTarget) (cs : List Chunk) (xs : List JobExchange)
    (r : Option (Except JobErr (List DocumentChunk))) : Prop where
  texts : textsIn xs = cs.map Chunk.text
  /-- The points sent so far are those of the first chunks, in order. -/
  sent : List.Forall₂ (fun cv p => p.Describes t cv.1 cv.2)
    ((cs.zip (vectorsIn xs)).take (pointsIn xs).length) (pointsIn xs)
  batched : ∀ points ∈ batchesIn xs, points.length ≤ 128
  /-- Each point has a UUID of its own. -/
  ids : ((pointsIn xs).map Point.id).Sublist (uuidsIn xs)
  /-- No point is sent twice, if the UUIDs are new. -/
  distinct : (uuidsIn xs).Nodup → ((pointsIn xs).map Point.id).Nodup
  /-- If rows are returned, each chunk has its vector and its point, and each point has its row. -/
  complete : ∀ rows, r = some (.ok rows) → (vectorsIn xs).length = cs.length ∧
    List.Forall₂ (fun cv p => p.Describes t cv.1 cv.2) (cs.zip (vectorsIn xs)) (pointsIn xs) ∧
    List.Forall₂ (fun p row => row.RefersTo t p) (pointsIn xs) rows
  /-- Rows are returned if and only if no call has failed. -/
  concludes : Concludes xs r

section Whole

variable {t : IndexTarget} {cs : List Chunk} {xs : List JobExchange}

/-- Nothing has been sent to Qdrant, and the call fails. -/
private theorem IndexTells.unsent {r : Option (Except JobErr (List DocumentChunk))}
    (htexts : textsIn xs = cs.map Chunk.text) (hbatches : batchesIn xs = [])
    (hr : ∀ rows, r ≠ some (.ok rows)) (hs : Concludes xs r) : IndexTells t cs xs r := by
  have hpoints : pointsIn xs = [] := congrArg List.flatten hbatches
  refine ⟨htexts, ?_, ?_, ?_, ?_, fun rows h => absurd h (hr rows), hs⟩
  · rw [hpoints]
    exact List.Forall₂.nil
  · rw [hbatches]
    exact fun points h => absurd h List.not_mem_nil
  · rw [hpoints]
    exact List.nil_sublist _
  · rw [hpoints]
    exact fun _ => List.nodup_nil

/-- The loop over the chunks and vectors has failed. -/
private theorem BuildTells.failed {vs : List Embedding} {ys : List JobExchange}
    {r : Option (Except JobErr (List (Point × DocumentChunk)))}
    {s : Option (Except JobErr (List DocumentChunk))} (h : BuildTells t cs vs ys r)
    (hr : ∀ b, r ≠ some (.ok b)) (hs : ∀ rows, s ≠ some (.ok rows)) :
    IndexTells t cs (embedded (cs.map Chunk.text) vs :: ys) s := by
  obtain ⟨htexts, -, -, hbatches⟩ :=
    @read_stages ys [] (cs.map Chunk.text) vs h.calls fun z hz => absurd hz List.not_mem_nil
  rw [stages, List.append_nil] at htexts hbatches
  exact .unsent htexts hbatches hs ((h.concludes.failed hr hs).cons (.embed _) vs)

/-- The points are built, and some of their batches are sent. -/
private theorem PairsBuilt.sent {vs : List Embedding} {ys zs : List JobExchange}
    {built : List (Point × DocumentChunk)} {r : Option (Except JobErr Unit)}
    (h : PairsBuilt t cs vs ys built) (hys : ∀ y ∈ ys, y.op = .uuid4) (hconcluded : ∀ y ∈ ys, y.Succeeds)
    (hlength : vs.length = cs.length) (hz : UpsertTells (Redis.slices 128 (built.map Prod.fst)) zs r) :
    IndexTells t cs (stages (cs.map Chunk.text) vs ys zs)
      (r.map (Except.map fun _ => built.map Prod.snd)) := by
  obtain ⟨htexts, hvectors, huuids, hbatches⟩ := read_stages (cs.map Chunk.text) vs hys hz.calls
  have hpoints : pointsIn (stages (cs.map Chunk.text) vs ys zs) = (batchesIn zs).flatten :=
    congrArg List.flatten hbatches
  have hall : (Redis.slices 128 (built.map Prod.fst)).flatten = built.map Prod.fst :=
    Redis.flatten_slices (by decide) _
  have hbegun : (batchesIn zs).flatten <+: built.map Prod.fst := by
    rw [← hall]
    exact hz.sent.flatten
  have hdescribed : List.Forall₂ (fun cv p => p.Describes t cv.1 cv.2) (cs.zip vs)
      (built.map Prod.fst) := List.forall₂_map_right_iff.mpr h.points
  have hids : ((pointsIn (stages (cs.map Chunk.text) vs ys zs)).map Point.id).Sublist
      (uuidsIn (stages (cs.map Chunk.text) vs ys zs)) := by
    rw [hpoints, huuids]
    refine (hbegun.map Point.id).sublist.trans ?_
    rw [List.map_map]
    exact h.ids
  refine ⟨htexts, ?_, ?_, hids, fun hnodup => hids.nodup hnodup, fun rows hrows => ?_, ?_⟩
  · rw [hpoints, hvectors]
    obtain ⟨rest, hrest⟩ := hbegun
    rw [← hrest] at hdescribed
    exact List.forall₂_take_append _ _ _ hdescribed
  · rw [hbatches]
    exact fun points hmem => Redis.length_le_of_mem_slices (hz.sent.subset hmem)
  · obtain ⟨u, hu, rfl⟩ := ok_of_map hrows
    rw [hpoints, hvectors, hz.complete u hu, hall]
    refine ⟨hlength, hdescribed, ?_⟩
    rw [List.forall₂_map_left_iff, List.forall₂_map_right_iff]
    exact List.forall₂_same.mpr h.rows
  · have hrest : Concludes (ys ++ zs) (r.map (Except.map fun _ => built.map Prod.snd)) :=
      (hz.concludes.append hconcluded).map _
    exact hrest.cons (.embed (cs.map Chunk.text)) vs

private theorem indexChunks_tells (t : IndexTarget) (cs : List Chunk) :
    (indexChunks cs t).Tells vectorEach (IndexTells t cs) := by
  cases cs with
  | nil =>
    refine ⟨rfl, List.Forall₂.nil, fun points h => absurd h List.not_mem_nil, List.nil_sublist _,
      fun _ => List.nodup_nil, fun rows h => ?_, concludes_done _⟩
    cases h
    exact ⟨rfl, List.Forall₂.nil, List.Forall₂.nil⟩
  | cons c cs =>
    unfold indexChunks
    refine tells_call (.unsent (List.append_nil _) rfl nofun (concludes_crash _))
      (fun e => .unsent (List.append_nil _) rfl nofun (concludes_error _ e)) fun vs hvs => ?_
    have hlength : vs.length = (c :: cs).length := by
      rw [show vs.length = ((c :: cs).map Chunk.text).length from hvs, List.length_map]
    refine tells_bind ((buildPoints_tells vectorEach t hlength).mono fun ys r hb => ?_)
    cases r with
    | none => exact hb.failed nofun nofun
    | some r =>
      cases r with
      | error e => exact hb.failed nofun nofun
      | ok built =>
        have hconcluded : ∀ y ∈ ys, y.Succeeds := hb.concludes.mp ⟨built, rfl⟩
        refine tells_map _ ((upsertAll_tells vectorEach _).mono fun zs r hz => ?_)
        exact (hb.built built rfl).sent hb.calls hconcluded hlength hz

end Whole

/-- With an embedding model that returns a vector for each text, whatever fails on the way, the points that
are sent to Qdrant are those of the first chunks, in order, each with the vector and the payload of its
chunk.  If rows are returned, all points have been sent and the rows are theirs; no rows are returned if
the model or a batch fails. -/
theorem index_chunks_pairs {W : Type} (h : Handler JobCalls JobErr W) (hone : OneVectorEach h)
    (t : IndexTarget) (cs : List Chunk) (outs : List (Outcome JobErr)) (w : W) :
    IndexTells t cs ((indexChunks cs t).exchanges h outs w) ((indexChunks cs t).run h outs w).1 := by
  refine tells_run (fun o v a ha => ?_) (indexChunks_tells t cs) outs w
  cases o with
  | embed texts => exact hone texts v a ha
  | _ => trivial

/-! ### The client of this repository -/

/-- The embedding model of a job is reached through `embed`. -/
def clientReplies (sha256 : String → String) (s : LlmSettings) (x : EmbedOutside) (v : EmbedRun)
    (env : JobReplies) : JobReplies :=
  { env with
    embed := fun texts =>
      ((embed sha256 s texts true).exec (embedReply x) v).1.mapError fun e => .exception e.text }

/-- Whatever is in its caches and whatever the server replies. -/
theorem oneVectorEach_client (sha256 : String → String) (s : LlmSettings) (x : EmbedOutside)
    (v : EmbedRun) (env : JobReplies) (pid : Nat) :
    OneVectorEach (jobHandler pid (clientReplies sha256 s x v env)) := by
  intro texts w vectors h
  have hreply : ((embed sha256 s texts true).exec (embedReply x) v).1.mapError
      (fun e => JobErr.exception e.text) = .ok vectors := h
  cases hr : ((embed sha256 s texts true).exec (embedReply x) v).1 with
  | error e =>
    rw [hr] at hreply
    cases hreply
  | ok vs =>
    rw [hr] at hreply
    obtain rfl : vs = vectors := Except.ok.inj hreply
    exact post_of_follows (fun _ _ _ _ => trivial) (embed_length sha256 s texts true) hr

/-- A client whose caches are empty. -/
def coldReplies : JobReplies :=
  clientReplies textDigests llmDefaults zerosOutside ⟨.cold [], 0, []⟩ plainReplies

/-- The chunks of a document of two pages. -/
def twoChunks : List Chunk :=
  [⟨0, "hợp đồng", 2, some "Chương I", some 1, some 1⟩, ⟨1, "thử việc", 2, none, some 1, some 2⟩]

theorem index_chunks_pairs_two : ∃ rows, IndexTells ⟨3, 2, 1, "luat.pdf"⟩ twoChunks
      ((indexChunks twoChunks ⟨3, 2, 1, "luat.pdf"⟩).exchanges (jobHandler 0 coldReplies) []
        JobWorld.uploaded) (some (.ok rows)) ∧ rows.length = 2 := by
  have htells := index_chunks_pairs (jobHandler 0 coldReplies)
    (oneVectorEach_client textDigests llmDefaults zerosOutside ⟨.cold [], 0, []⟩ plainReplies 0)
    ⟨3, 2, 1, "luat.pdf"⟩ twoChunks [] JobWorld.uploaded
  have hrows : ((indexChunks twoChunks ⟨3, 2, 1, "luat.pdf"⟩).run (jobHandler 0 coldReplies) []
      JobWorld.uploaded).1 =
      some (.ok [rowOf ⟨3, 2, 1, "luat.pdf"⟩ 10 11 twoChunks[0],
        rowOf ⟨3, 2, 1, "luat.pdf"⟩ 12 13 twoChunks[1]]) := by
    decide +kernel
  rw [hrows] at htells
  exact ⟨_, htells, rfl⟩

end LegalRag
