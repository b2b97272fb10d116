import LegalRag.Retrieval.Alone
import Mathlib.Data.List.Permutation

/-!
# A retrieval does not depend on other users

What `retrieve_and_rerank` returns, called as the agent calls it, depends on the question and on the
points of the user only: in two runs of a service that agree in these, it returns the same
(`retrieve_isolated`), whatever other requests have left in the caches.  It is what the parts of the
pipeline return alone (`retrieveAlone`).
-/

namespace LegalRag

open Calls Prog Service Json

/-! ### The pool -/

section Pool

variable {byId : List SearchHit} {h a : SearchHit} {results : List (List SearchHit)}

theorem mem_keepBest (hmem : h ∈ keepBest byId a) : h ∈ byId ∨ h = a := by
  unfold keepBest at hmem
  by_cases hany : (byId.any fun e => e.pointId = a.pointId) = true
  · rw [if_pos hany] at hmem
    obtain ⟨e, he, rfl⟩ := List.mem_map.mp hmem
    split
    · exact Or.inr rfl
    · exact Or.inl he
  · rw [if_neg hany] at hmem
    exact (List.mem_append.mp hmem).imp id List.mem_singleton.mp

theorem nodup_keepBest (hnodup : (byId.map SearchHit.pointId).Nodup) :
    ((keepBest byId a).map SearchHit.pointId).Nodup := by
  unfold keepBest
  by_cases hany : (byId.any fun e => e.pointId = a.pointId) = true
  · rw [if_pos hany, List.map_map]
    have hids : (SearchHit.pointId ∘ fun e : SearchHit => if e.pointId = a.pointId ∧
      e.score < a.score then a else e) = SearchHit.pointId := by
      funext e
      show (if e.pointId = a.pointId ∧ e.score < a.score then a else e).pointId = e.pointId
      split
      · rename_i hor
        exact hor.1.symm
      · rfl
    rw [hids]
    exact hnodup
  · rw [if_neg hany, List.map_append, List.nodup_append]
    refine ⟨hnodup, List.nodup_singleton _, ?_⟩
    intro i hi j hj heq
    obtain ⟨e, he, rfl⟩ := List.mem_map.mp hi
    obtain rfl := List.mem_singleton.mp hj
    exact hany (List.any_eq_true.mpr ⟨e, he, decide_eq_true heq⟩)

private theorem mem_dedupe (hmem : h ∈ dedupe results) : ∃ batch ∈ results, h ∈ batch := by
  have hfold : ∀ (l : List SearchHit) (byId : List SearchHit), h ∈ l.foldl keepBest byId →
      h ∈ byId ∨ h ∈ l := by
    intro l
    induction l with
    | nil => exact fun byId hin => Or.inl hin
    | cons a l ih =>
      intro byId hin
      rcases ih _ hin with hkept | hlater
      · rcases mem_keepBest hkept with hold | rfl
        · exact Or.inl hold
        · exact Or.inr (List.mem_cons_self ..)
      · exact Or.inr (List.mem_cons_of_mem a hlater)
  rcases hfold _ _ hmem with hnil | hin
  · cases hnil
  · exact List.mem_flatten.mp hin

private theorem nodup_dedupe (results : List (List SearchHit)) :
    ((dedupe results).map SearchHit.pointId).Nodup := by
  have hfold : ∀ (l : List SearchHit) (byId : List SearchHit), (byId.map SearchHit.pointId).Nodup →
      ((l.foldl keepBest byId).map SearchHit.pointId).Nodup := by
    intro l
    induction l with
    | nil => exact fun byId hnodup => hnodup
    | cons a l ih => exact fun byId hnodup => ih _ (nodup_keepBest hnodup)
  exact hfold _ [] List.nodup_nil

theorem mem_poolOf {k : Nat} {h : SearchHit} (hh : h ∈ poolOf k results) : ∃ batch ∈ results, h ∈ batch :=
  mem_dedupe (Ranked.mem_ranked.mp (List.mem_of_mem_take hh))

/-- What the searches of one user find makes a pool. -/
private theorem isPool_poolOf {Pts : Set Point} {tenantId userId : Uuid}
    (hfound : ∀ batch ∈ results, ∀ h ∈ batch, FoundIn Pts tenantId userId h) :
    IsPool Pts (poolOf 20 results) := by
  unfold poolOf Redis.sliceTo
  refine ⟨?_, ?_, tenantId, userId, ?_⟩
  · refine List.Nodup.sublist ((List.take_sublist ..).map _) ?_
    exact ((Ranked.perm_ranked SearchHit.score (dedupe results)).map SearchHit.pointId).nodup_iff.mpr
      (nodup_dedupe results)
  · exact List.length_take_le _ _
  · intro h hh
    obtain ⟨batch, hbatch, hmem⟩ := mem_poolOf hh
    exact hfound batch hbatch h hmem

end Pool

/-! ### The program -/

section Program

variable {x : RetrievalSetup} {up : Upstream} {U : CacheUse → Prop} {points : List Point → Prop}
  {F : Prop} {Pts : Set Point} {tenantId userId : Uuid}

/-- What a search finds among the points. -/
def searchAlone (x : RetrievalSetup) (up : Upstream) (tenantId userId : Uuid) (ps : List Point)
    (query : String) : List SearchHit :=
  (up.search ps (up.current x.llm query) (mustConditions tenantId (some userId) none) 20).map hitOf

/-- The search only sees the points of the user. -/
private theorem searchAlone_own (ps : List Point) (query : String) :
    searchAlone x up tenantId userId ps query = searchAlone x up tenantId userId
      (ps.filter (ownPoint tenantId userId)) query := by
  unfold searchAlone Upstream.search
  rw [List.filter_filter]
  simp only [ownPoint, Bool.and_self]

private theorem foundIn_searchAlone {ps : List Point} (hps : ∀ p ∈ ps, p ∈ Pts) {query : String}
    {h : SearchHit} (hh : h ∈ searchAlone x up tenantId userId ps query) : FoundIn Pts tenantId userId h := by
  obtain ⟨found, hfound, rfl⟩ := List.mem_map.mp hh
  have hmem := Ranked.mem_ranked.mp (List.mem_of_mem_take hfound)
  obtain ⟨p, hp, rfl⟩ := List.mem_map.mp hmem
  obtain ⟨hin, hpasses⟩ := List.mem_filter.mp hp
  exact ⟨p, hps p hin, hpasses, rfl⟩

/-- What `range(0, len(misses), 0)` raises. -/
def zeroBatch : LlmErr := ⟨"range() arg 3 must not be zero"⟩

/-- A search ends with hits, or for lack of a batch size. -/
private theorem vectorSearch_accords (hU : Coherent x up U) (hsized : SizedVectors x U)
    (hup : ∀ r, up.embedFailure r = none) {query : String}
    (hquery : 0 < x.llm.embeddingBatchSize → U (.vector query)) :
    (vectorSearch x query tenantId (some userId) none 20).Accords
      (MayFail F (Replies (keptKnown x up U points) up)) (Writes (keptKnown x up U points))
      (Ends (fun hits => 0 < x.llm.embeddingBatchSize ∧ ∃ ps, points ps ∧
      hits = searchAlone x up tenantId userId ps query)
        fun e => x.llm.embeddingBatchSize = 0 ∧ e = zeroBatch ∨ F) := by
  refine accords_bind ((embed_computes hU hsized hquery hup).mono fun r hr => ?_)
  rcases hr with rfl | ⟨hF, e, rfl⟩
  · unfold Upstream.embedOne
    by_cases hzero : x.llm.embeddingBatchSize = 0
    · rw [if_pos hzero]
      exact Or.inl ⟨hzero, rfl⟩
    · rw [if_neg hzero]
      refine accords_call trivial fun r hr => ?_
      rcases hr with ⟨ps, rfl, hps⟩ | ⟨hF, e, rfl⟩
      · exact ⟨Nat.pos_of_ne_zero hzero, ps, hps, rfl⟩
      · exact Or.inr hF
  · exact Or.inr hF

/-- What the pipeline returns for a question when the user has these points. -/
def retrieveAlone (x : RetrievalSetup) (up : Upstream) (own : List Point) (query : String)
    (tenantId userId : Uuid) : Except LlmErr (List RetrievedChunk) := do
  let queries ← rewriteAlone x up query
  if x.llm.embeddingBatchSize = 0 then throw zeroBatch
  let ranked ← rerankAlone x up query (poolOf 20 (queries.map (searchAlone x up tenantId userId own))) 5
  return ranked.map RankedHit.chunk

private theorem rewriteAlone_ne_nil {query : String} {qs : List String}
    (h : rewriteAlone x up query = .ok qs) : qs ≠ [] := by
  unfold rewriteAlone queriesOf at h
  cases hresp : up.create (rewriteCall x query).request with
  | error e =>
    rw [hresp] at h
    cases h
  | ok resp =>
    rw [hresp] at h
    change (replyText resp >>= fun raw => ofPy (queriesIn x raw) >>= fun qs => pure _) = _ at h
    cases hraw : replyText resp with
    | error e =>
      rw [hraw] at h
      cases h
    | ok raw =>
      rw [hraw] at h
      change (ofPy (queriesIn x raw) >>= fun qs => pure _) = _ at h
      cases hqs : ofPy (queriesIn x raw) with
      | error e =>
        rw [hqs] at h
        cases h
      | ok all =>
        rw [hqs] at h
        obtain rfl := Except.ok.inj h
        by_cases hnil : all = []
        · simp [hnil]
        · rw [if_neg hnil]
          simpa using hnil

theorem candidates_sublist (hits : List SearchHit) : (candidates x hits).Sublist hits := by
  unfold candidates
  split
  · exact List.take_sublist _ _
  · exact List.Sublist.refl _

private theorem used_sized {fails : Prop} {A : Set PipelineCall} :
    SizedVectors x (Used x up fails A Pts) := by
  intro t ht
  cases ht with
  | text hA ht hsize => exact hsize
  | query hA hqs hsub hsize => exact hsize

private theorem retrieveAlone_error {own : List Point} {query : String} {e : LlmErr}
    (h : rewriteAlone x up query = .error e) : retrieveAlone x up own query tenantId userId = .error e := by
  unfold retrieveAlone
  rw [h]
  rfl

private theorem retrieveAlone_zero {own : List Point} {query : String} {qs : List String}
    (h : rewriteAlone x up query = .ok qs) (hzero : x.llm.embeddingBatchSize = 0) :
    retrieveAlone x up own query tenantId userId = .error zeroBatch := by
  unfold retrieveAlone
  rw [h]
  show (if x.llm.embeddingBatchSize = 0 then throw zeroBatch else _ : Except LlmErr _) = _
  rw [if_pos hzero]
  rfl

private theorem retrieveAlone_ok {own : List Point} {query : String} {qs : List String}
    (h : rewriteAlone x up query = .ok qs) (hsize : 0 < x.llm.embeddingBatchSize) :
    retrieveAlone x up own query tenantId userId =
      (rerankAlone x up query (poolOf 20 (qs.map (searchAlone x up tenantId userId own))) 5).map
        fun ranked => ranked.map RankedHit.chunk := by
  unfold retrieveAlone
  rw [h]
  show (if x.llm.embeddingBatchSize = 0 then throw zeroBatch else _ : Except LlmErr _) = _
  rw [if_neg (Nat.ne_of_gt hsize)]
  rfl

/-- Unless calls fail on the way, a retrieval returns what it would alone; what holds of others, `D`, is
not asked. -/
private theorem retrieveAndRerank_accords {fails D : Prop} {A : Set PipelineCall} {own : List Point}
    (hU : Coherent x up (Used x up fails A Pts)) (hF : F → fails) (hD : F → D)
    (hembed : ∀ r, up.embedFailure r = none) (hup : FiniteReplies x up)
    (hpoints : ∀ ps, points ps → ∀ p ∈ ps, p ∈ Pts)
    (hown : (∀ ps, points ps → ps.filter (ownPoint tenantId userId) = own) ∨ D) {order : List Nat}
    {query : String} (hask : Asks A query) :
    (retrieveAndRerank x order query tenantId (some userId) none 20 5 true).Accords
      (MayFail F (Replies (keptKnown x up (Used x up fails A Pts) points) up))
        (Writes (keptKnown x up (Used x up fails A Pts) points))
      fun r => r = retrieveAlone x up own query tenantId userId ∨ D := by
  have hsized : SizedVectors x (Used x up fails A Pts) := used_sized
  refine accords_bind ((rewriteQuery_computes hU (.rewrite hask) (.rewriteCall hask)).mono fun r hr => ?_)
  rcases hr with rfl | ⟨hf, e, rfl⟩
  swap
  · exact Or.inr (hD hf)
  cases hqs : rewriteAlone x up query with
  | error e => exact Or.inl (retrieveAlone_error hqs).symm
  | ok qs =>
    rw [cont_ok]
    -- every search ends with what it finds among the points there are when it is made
    let V (q : String) (hits : List SearchHit) : Prop :=
      0 < x.llm.embeddingBatchSize ∧ ∃ ps, points ps ∧ hits = searchAlone x up tenantId userId ps q
    let E (e : LlmErr) : Prop := x.llm.embeddingBatchSize = 0 ∧ e = zeroBatch ∨ F
    have hsearches : ∀ sub ∈ qs, (vectorSearch x sub tenantId (some userId) none 20).Accords
        (MayFail F (Replies (keptKnown x up (Used x up fails A Pts) points) up))
        (Writes (keptKnown x up (Used x up fails A Pts) points)) (Ends (V sub) E) := by
      intro sub hsub
      exact vectorSearch_accords hU hsized hembed fun hsize => .query hask hqs hsub hsize
    have hall : List.Forall₂ (fun sub (p : Llm (List SearchHit)) => p.Accords
        (MayFail F (Replies (keptKnown x up (Used x up fails A Pts) points) up))
        (Writes (keptKnown x up (Used x up fails A Pts) points)) (Ends (V sub) E)) qs
        (qs.map fun sub => vectorSearch x sub tenantId (some userId) none 20) := by
      rw [List.forall₂_map_right_iff, List.forall₂_same]
      exact hsearches
    refine accords_bind ((accords_gather order hall).mono fun r hr => ?_)
    cases r with
    | error e =>
      rcases hr with ⟨hzero, rfl⟩ | hf
      · exact Or.inl (retrieveAlone_zero hqs hzero).symm
      · exact Or.inr (hD hf)
    | ok results =>
      have hforall : List.Forall₂ V qs results := hr
      have hsize : 0 < x.llm.embeddingBatchSize := by
        cases hforall with
        | nil => exact absurd rfl (rewriteAlone_ne_nil hqs)
        | cons hv _ => exact hv.1
      have hpool : IsPool Pts (poolOf 20 results) := by
        have hfound : ∀ batch ∈ results, ∀ a ∈ batch, FoundIn Pts tenantId userId a := by
          intro batch hbatch a ha
          obtain ⟨q, -, -, ps, hps, rfl⟩ := Related.exists_left hforall hbatch
          exact foundIn_searchAlone (hpoints ps hps) ha
        exact isPool_poolOf hfound
      rw [cont_ok]
      refine accords_bind ((rerank_accords hU hup fun b hb h2 => ?_).mono fun r hr => ?_)
      · have hcut : IsPool Pts (candidates x (poolOf 20 results)) := hpool.sublist (candidates_sublist _)
        have hactive : b.Active x up fails := by
          cases b with
          | cohere => exact hb
          | llm => exact fun henabled => (hb henabled).imp hF id
        refine ⟨fun _ => .rerank hask hcut h2 hactive, ?_⟩
        rintro rfl
        exact .rerankCall hask hcut h2 hactive
      · rcases hr with rfl | hf
        · rcases hown with hown | hd
          · -- the points of the user are the same ones for every search
            have hresults : results = qs.map (searchAlone x up tenantId userId own) := by
              have hsame : ∀ q hits, V q hits → searchAlone x up tenantId userId own q = id hits := by
                rintro q hits ⟨-, ps, hps, rfl⟩
                rw [id, searchAlone_own ps, hown ps hps]
              rw [Related.map_eq_map hsame hforall, List.map_id]
            have halone := @retrieveAlone_ok x up tenantId userId own _ _ hqs hsize
            rw [← hresults] at halone
            change (cont _ (rerankAlone x up query (poolOf 20 results) 5)).Accords _ _ fun r =>
              r = retrieveAlone x up own query tenantId userId ∨ D
            rw [halone]
            cases rerankAlone x up query (poolOf 20 results) 5 <;> exact Or.inl rfl
          · cases rerankAlone x up query (poolOf 20 results) 5 <;> exact Or.inr hd
        · cases r <;> exact Or.inr (hD hf)

end Program

/-! ### Two runs -/

/-- A call in the process `host`. -/
structure HostedPipeline where
  host : Nat
  call : PipelineCall

/-- What a call returns. -/
inductive Served where
  | chunks (cs : List RetrievedChunk)
  | completion (c : ChatCompletion)
  | vectors (vs : List Embedding)

def PipelineCall.program (x : RetrievalSetup) : PipelineCall → Llm Served
  | .retrieve order query tenantId userId => do
    return .chunks (← retrieveAndRerank x order query tenantId (some userId) none 20 5 true)
  | .complete c => do return .completion (← LegalRag.complete x.sha256 x.llm c.call)
  | .embed texts useCache => do return .vectors (← LegalRag.embed x.sha256 x.llm texts useCache)

/-- Any number of processes that serve retrievals and calls of the clients, and share a Redis and the
points. -/
def pipelineService (x : RetrievalSetup) (up : Upstream) :
    Service LlmCalls LlmErr LlmWorld HostedPipeline CacheEnv Served where
  program r := r.call.program x
  enter _ w := w
  handle _ r := llmReply up r.host
  env e w := some (e.step w)

/-- All points that are stored are of `Pts`. -/
def StoresIn (Pts : Set Point) : CacheEnv → Prop
  | .points ps => ∀ p ∈ ps, p ∈ Pts
  | .expire _ | .restart _ => True

abbrev PipelineState := State LlmCalls LlmErr LlmWorld HostedPipeline Served

abbrev PipelineLabel := Label LlmErr HostedPipeline CacheEnv

/-- A run of calls of `A` with points of `Pts`, in which calls only fail if `fails`. -/
structure RunOf (x : RetrievalSetup) (up : Upstream) (fails : Prop) (A : Set PipelineCall)
    (Pts : Set Point) (s : PipelineState) (ls : List PipelineLabel) (t : PipelineState) : Prop where
  starts : ∀ l ∈ ls, l.Starts fun r => r.call ∈ A
  stores : ∀ l ∈ ls, l.Moves (StoresIn Pts)
  raises : ∀ l ∈ ls, l.Raises → fails
  run : (pipelineService x up).run s ls = some t

/-- In a run from cold caches, after some other calls, a retrieval for the user ends with `r`; as long as
it runs the points of the user are `own`, and none of its own calls fails on the way. -/
def Retrieves (x : RetrievalSetup) (up : Upstream) (fails : Prop) (A : Set PipelineCall) (Pts : Set Point)
    (query : String) (tenantId userId : Uuid) (own : List Point) (r : Except LlmErr Served) : Prop :=
  ∃ (ps : List Point) (before after : List PipelineLabel) (s t : PipelineState) (pid host : Nat)
    (order : List Nat), (∀ p ∈ ps, p ∈ Pts) ∧
    RunOf x up fails A Pts (idle (.cold ps)) before s ∧
    RunOf x up fails A Pts s (.start pid ⟨host, .retrieve order query tenantId userId⟩ :: after) t ∧
    (pipelineService x up).Meets (fun s _ => s.world.points.filter (ownPoint tenantId userId) = own) s
      (.start pid ⟨host, .retrieve order query tenantId userId⟩ :: after) ∧
    (∀ r, .start pid r ∉ after) ∧ (∀ e applied, .call pid (.raised e applied) ∉ after) ∧
    t.procs pid = some ⟨⟨host, .retrieve order query tenantId userId⟩, .done r⟩

/-- What the two-run property assumes of the servers, of the points and of SHA-256. -/
structure Shareable (x : RetrievalSetup) (up : Upstream) (fails : Prop) (A : Set PipelineCall)
    (Pts : Set Point) : Prop where
  embeds : ∀ r, up.embedFailure r = none
  finite : FiniteReplies x up
  ids : IdsUnique Pts
  apart : BothActive x up fails → Apart x.rerank.cohereRerankModel x.llm.llmModelDefault
  hash : NoUseCollision x (Used x up fails A Pts)

section Runs

variable {x : RetrievalSetup} {up : Upstream} {fails : Prop} {A : Set PipelineCall} {Pts : Set Point}

/-- What is known of the caches and of the points. -/
abbrev pipelineKnown (x : RetrievalSetup) (up : Upstream) (fails : Prop) (A : Set PipelineCall)
    (Pts : Set Point) (points : List Point → Prop) : Known :=
  keptKnown x up (Used x up fails A Pts) points

/-- The points are of `Pts`. -/
abbrev Within (Pts : Set Point) (ps : List Point) : Prop := ∀ p ∈ ps, p ∈ Pts

private theorem Shareable.coherent (h : Shareable x up fails A Pts) : Coherent x up (Used x up fails A Pts) :=
  coherent_of_noCollision h.hash h.apart h.ids

private theorem accords_return {R : (o : LlmOp) → Except LlmErr o.Resp → Prop} {N : LlmOp → Prop} {α : Type}
    {p : Llm α} {f : α → Served} {post : Except LlmErr α → Prop} (hp : p.Accords R N post) :
    (p >>= fun a => pure (f a)).Accords R N fun _ => True := by
  refine accords_bind (hp.mono fun r _ => ?_)
  cases r <;> trivial

/-- All calls keep the caches right. -/
private theorem program_accords (h : Shareable x up fails A Pts) {c : PipelineCall} (hc : c ∈ A) :
    (c.program x).Accords (MayFail fails (Replies (pipelineKnown x up fails A Pts (Within Pts)) up))
      (Writes (pipelineKnown x up fails A Pts (Within Pts))) fun _ => True := by
  cases c with
  | retrieve order query tenantId userId =>
    have hrun : (retrieveAndRerank x order query tenantId (some userId) none 20 5 true).Accords
        (MayFail fails (Replies (pipelineKnown x up fails A Pts (Within Pts)) up))
        (Writes (pipelineKnown x up fails A Pts (Within Pts)))
        fun r => r = retrieveAlone x up [] query tenantId userId ∨ True :=
      retrieveAndRerank_accords h.coherent id (fun _ => trivial) h.embeds h.finite (fun _ hps => hps)
        (Or.inr trivial) ⟨order, tenantId, userId, hc⟩
    exact accords_return hrun
  | complete c => exact accords_return (complete_computes h.coherent fun hcc => .call hc hcc)
  | embed texts useCache =>
    have hright : CacheRight x.sha256 x.llm up (pipelineKnown x up fails A Pts (Within Pts)) useCache texts :=
      ⟨fun _ t ht => vector_finds h.coherent used_sized fun hsize => .text hc ht hsize,
        fun _ hsize t ht => vector_takes (fun hsize => .text hc ht hsize) hsize⟩
    refine accords_return (accords_of_follows (fun o a ha => ?_) (embed_follows hright))
    rcases ha with ha | ⟨-, e, he⟩
    · exact ha
    · cases he

variable {query : String} {tenantId userId : Uuid} {own : List Point}

/-- The points are of `Pts`, and those of the user are `own`. -/
abbrev Holding (Pts : Set Point) (tenantId userId : Uuid) (own ps : List Point) : Prop :=
  Within Pts ps ∧ ps.filter (ownPoint tenantId userId) = own

private theorem writes_points {U : CacheUse → Prop} (points points' : List Point → Prop) :
    Writes (keptKnown x up U points) = Writes (keptKnown x up U points') := by
  funext o
  cases o <;> rfl

/-- A retrieval while which the points of the user stay as they are. -/
private theorem retrieve_program_accords (h : Shareable x up fails A Pts) {order : List Nat}
    (hc : .retrieve order query tenantId userId ∈ A) :
    ((PipelineCall.retrieve order query tenantId userId).program x).Accords
      (MayFail False (Replies (pipelineKnown x up fails A Pts (Holding Pts tenantId userId own)) up))
      (Writes (pipelineKnown x up fails A Pts (Within Pts)))
      fun r => r = (retrieveAlone x up own query tenantId userId).map .chunks := by
  rw [writes_points (Within Pts) (Holding Pts tenantId userId own)]
  refine accords_bind
    ((retrieveAndRerank_accords (D := False) h.coherent False.elim id h.embeds h.finite (fun _ hps => hps.1)
    (Or.inl fun _ hps => hps.2) ⟨order, tenantId, userId, hc⟩).mono fun r hr => ?_)
  rcases hr with rfl | hfalse
  · cases retrieveAlone x up own query tenantId userId <;> rfl
  · exact hfalse.elim

/-- A retrieval returns what it would alone. -/
private theorem retrieves_alone (h : Shareable x up fails A Pts) {r : Except LlmErr Served}
    (hr : Retrieves x up fails A Pts query tenantId userId own r) :
    r = (retrieveAlone x up own query tenantId userId).map .chunks := by
  obtain ⟨ps, before, after, s, t, pid, host, order, hps, hbefore, hrun, hmeets, hnew, hcalm, hproc⟩ := hr
  let S := pipelineService x up
  let K := pipelineKnown x up fails A Pts (Within Pts)
  have hprog : ∀ c : HostedPipeline, c.call ∈ A →
    (S.program c).Accords (MayFail fails (Replies K up)) (Writes K) fun _ => True :=
    fun c hc => program_accords h hc
  have hcall : ∀ (pid : Nat) (c : HostedPipeline) (o : LlmCalls.Op) (w : LlmWorld), Writes K o → w.All K →
      (S.handle pid c o w).2.All K ∧
      MayFail (I := LlmCalls) fails (Replies K up) o (S.handle pid c o w).1 := by
    intro pid c o w ho hw
    obtain ⟨hnext, hreply⟩ := hw.call up c.host ho
    exact ⟨hnext, Or.inl hreply⟩
  have henv : ∀ e w w', StoresIn Pts e → w.All K → S.env e w = some w' → w'.All K := by
    intro e w w' he hw hstep
    obtain rfl := Option.some.inj hstep
    refine hw.env ?_
    rintro ps rfl
    exact he
  have hraise : ∀ {s : PipelineState} {t : PipelineState} {ls : List PipelineLabel},
    RunOf x up fails A Pts s ls t → ∀ l ∈ ls, l.Raises → ∀ o e,
    MayFail (I := LlmCalls) fails (Replies K up) o (.error e) :=
    fun hrun l hl hraise o e => Or.inr ⟨hrun.raises l hl hraise, e, rfl⟩
  have hidle : (idle (.cold ps) : PipelineState).Accords (MayFail fails (Replies K up)) (Writes K)
    (fun _ _ => True) (LlmWorld.All K) := accords_idle (all_cold hps)
  -- before the retrieval, from cold caches on
  have hs : s.Accords (MayFail fails (Replies K up)) (Writes K) (fun _ _ => True) (LlmWorld.All K) :=
    accords_from hprog (fun _ _ hw => hw) hcall henv hidle hbefore.starts hbefore.stores
      (hraise hbefore) hbefore.run
  obtain ⟨u, hu, hafter⟩ := run_cons hrun.run
  have hfirst :=
    List.mem_cons_self (a :=
    (Label.start pid ⟨host, .retrieve order query tenantId userId⟩ : PipelineLabel)) (l := after)
  have hstep := accords_step hprog (fun _ _ hw => hw) hcall henv hs (hrun.starts _ hfirst)
    (hrun.stores _ hfirst) (hraise hrun _ hfirst) hu
  -- the retrieval itself, which the failures of others do not reach
  have hmine : ∀ p, u.procs pid = some p → p.prog.Accords
      (MayFail False (Replies (pipelineKnown x up fails A Pts (Holding Pts tenantId userId own)) up))
        (Writes K) fun r => r = (retrieveAlone x up own query tenantId userId).map .chunks := by
    intro p hp
    rcases step_cases hu with ⟨q, c, hlabel, -, rfl⟩ | ⟨_, _, _, _, _, hlabel, -⟩ | ⟨_, _, hlabel, -⟩
    · obtain ⟨rfl, rfl⟩ := Label.start.inj hlabel
      obtain rfl := Option.some.inj ((State.set_procs_self ..).symm.trans hp)
      exact retrieve_program_accords h (hrun.starts _ hfirst)
    · cases hlabel
    · cases hlabel
  have hend := accords_own (C := fun w => w.points.filter (ownPoint tenantId userId) = own) hprog
    (fun _ _ hw => hw) hcall henv
    (fun c o w ho hw hC => ?_) hstep (fun l hl => hrun.starts l (List.mem_cons_of_mem _ hl))
    (fun l hl => hrun.stores l (List.mem_cons_of_mem _ hl))
      (fun l hl => hraise hrun l (List.mem_cons_of_mem _ hl)) hnew hcalm (hmeets.2 u hu) hmine hafter _ hproc
  · exact hend
  · left
    have hw' : w.All (pipelineKnown x up fails A Pts (Holding Pts tenantId userId own)) :=
      ⟨hw.complete, hw.embed, hw.redis, hw.points, hC⟩
    refine (hw'.call up c.host ?_).2
    rw [← writes_points (Within Pts)]
    exact ho

end Runs

/-- In two runs that agree on the points of a user, however they differ otherwise, a retrieval for the
user returns the same. -/
theorem retrieve_isolated {x : RetrievalSetup} {up : Upstream} {fails : Prop} {A : Set PipelineCall}
    {Pts : Set Point} (h : Shareable x up fails A Pts) {query : String} {tenantId userId : Uuid}
    {own : List Point} {r r' : Except LlmErr Served}
    (hr : Retrieves x up fails A Pts query tenantId userId own r)
    (hr' : Retrieves x up fails A Pts query tenantId userId own r') : r = r' := by
  rw [retrieves_alone h hr, retrieves_alone h hr']

/-! ### A question of two users -/

/-- The question of both users, and what the model makes of it. -/
def probation : String := "thử việc"

def probationReply : String := "\x7b\"queries\": [\"thời gian thử việc\"]\x7d"

/-- The points of two users. -/
def probationPoint (id userId : Uuid) (text : String) : Point :=
  ⟨id, [1, 0], "2", toString userId, "7", "Bộ luật Lao động", id, some "Điều 24", some 1, some 1, text, 9⟩

def probationPoints : List Point :=
  [probationPoint 11 1 "Nghỉ việc", probationPoint 12 1 "Không quá 180 ngày",
    probationPoint 21 3 "Không quá 60 ngày"]

/-- The text of the key of the rewrite's completion. -/
def probationCallText : String :=
  keyText (jsonCall llmDefaults rewriteSystem probation rewriteTokens).keyParts

/-- The texts of the keys, with their digests. -/
def probationDigests : List (String × String) :=
  [(probationCallText, "48e4cd837c0627abbc752987934c72bed6da0849f481d4d407b1f42227b2045b"),
    ("gemini-2.5-flash|thử việc|", "5de37e532271972088f7e868aa617ff9aae422499781990a96d63634e1186257"),
    ("gemini-embedding-001|thời gian thử việc|",
      "4460fd51d0078d9c5611db9804f77a3bab7a7141d454080ae036d4ecb12bbbb0"),
    ("rerank-v3.5|thử việc|[\"11\",\"12\"]|",
      "42d4c5a6b9ddd82d38933e05fc810399c2cf7ccfa5354608f9445df9cdc94380"),
    ("rerank-v3.5|thử việc|[\"12\",\"11\"]|",
      "1ced9bbd4feabc73d0ef16efc74f1b62af5e42a741e0c3b1c4efdd33ffa18fba")]

def probationSetup : RetrievalSetup where
  sha256 := digestTable probationDigests
  llm := llmDefaults
  rerank := ⟨"cohere", some "co-key", "rerank-v3.5", 100⟩
  parse := {
    loads := fun raw =>
      if raw = probationReply then .ok (.dict [("queries", .list [.str "thời gian thử việc"])])
      else .error ⟨.jsonDecodeError, "Expecting value: line 1 column 1 (char 0)"⟩
    int := fun _ => none
    float := fun _ => none }

/-- Cohere finds the later of the points more relevant. -/
def probationServers : Upstream where
  create _ := .ok ⟨[some probationReply], .null⟩
  vector _ _ _ := [1, 0]
  embedFailure _ := none
  rerank r := .ok ((List.range r.topN).map fun i => ((i : Int), ((i : ℚ) + 1) / 10))
  similarity _ _ := 1 / 2

/-- Retrievals for the question, of whichever user. -/
def probationCalls : Set PipelineCall :=
  {c | ∃ order tenantId userId, c = .retrieve order probation tenantId userId}

section Probation

abbrev ProbationUse : CacheUse → Prop :=
  Used probationSetup probationServers False probationCalls {p | p ∈ probationPoints}

private theorem asks_probation {query : String} (h : Asks probationCalls query) : query = probation := by
  obtain ⟨order, tenantId, userId, order', tenantId', userId', heq⟩ := h
  injection heq

/-- The ids of a pool are those of the two points of the first user, in some order. -/
private theorem probation_pool {hits : List SearchHit} (hp : IsPool {p | p ∈ probationPoints} hits)
    (h2 : 2 ≤ hits.length) :
    hits.map SearchHit.pointId = ["11", "12"] ∨ hits.map SearchHit.pointId = ["12", "11"] := by
  obtain ⟨tenantId, userId, hfound⟩ := hp.found
  have hid : ∀ h ∈ hits, (toString userId = "1" ∧ (h.pointId = "11" ∨ h.pointId = "12")) ∨
      (toString userId = "3" ∧ h.pointId = "21") := by
    intro h hh
    obtain ⟨p, hp, hown, heq⟩ := hfound h hh
    obtain ⟨-, huser⟩ := passes_user.mp hown
    rw [heq]
    have hids : toString (11 : Uuid) = "11" ∧ toString (12 : Uuid) = "12" ∧ toString (21 : Uuid) = "21" :=
      by decide +kernel
    have husers : toString (1 : Uuid) = "1" ∧ toString (3 : Uuid) = "3" := by decide +kernel
    rcases List.mem_cons.mp hp with rfl | hp
    · exact Or.inl ⟨huser.symm.trans husers.1, Or.inl hids.1⟩
    rcases List.mem_cons.mp hp with rfl | hp
    · exact Or.inl ⟨huser.symm.trans husers.1, Or.inr hids.2.1⟩
    obtain rfl := List.mem_singleton.mp hp
    exact Or.inr ⟨huser.symm.trans husers.2, hids.2.2⟩
  have hsub : hits.map SearchHit.pointId ⊆ ["11", "12"] ∨ hits.map SearchHit.pointId ⊆ ["21"] := by
    by_cases hfirst : toString userId = "1"
    · left
      intro i hi
      obtain ⟨h, hh, rfl⟩ := List.mem_map.mp hi
      rcases hid h hh with ⟨-, hpoint⟩ | ⟨hthird, -⟩
      · simpa using hpoint
      · exact absurd (hfirst.symm.trans hthird) (by decide)
    · right
      intro i hi
      obtain ⟨h, hh, rfl⟩ := List.mem_map.mp hi
      rcases hid h hh with ⟨huser, -⟩ | ⟨-, hpoint⟩
      · exact absurd huser hfirst
      · exact List.mem_singleton.mpr hpoint
  rcases hsub with hsub | hsub
  · have hperm : (hits.map SearchHit.pointId).Perm ["11", "12"] := by
      refine (List.subperm_of_subset hp.nodup hsub).perm_of_length_le ?_
      rw [List.length_map]
      exact h2
    exact List.perm_pair.mp hperm
  · -- the third user has one point only
    have hle := (List.subperm_of_subset hp.nodup hsub).length_le
    rw [List.length_map] at hle
    exact absurd (h2.trans hle) (by decide)

private theorem probation_texts {u : CacheUse} (hu : ProbationUse u) :
    keyText (u.parts probationSetup) ∈ probationDigests.map Prod.fst := by
  cases hu with
  | call hA hc =>
    obtain ⟨order, tenantId, userId, heq⟩ := hA
    cases heq
  | text hA ht hsize =>
    obtain ⟨order, tenantId, userId, heq⟩ := hA
    cases heq
  | rewriteCall hA =>
    obtain rfl := asks_probation hA
    exact List.mem_map.mpr ⟨_, List.mem_cons_self .., rfl⟩
  | rewrite hA =>
    obtain rfl := asks_probation hA
    exact List.mem_map.mpr ⟨probationDigests[1], List.getElem_mem _, by decide +kernel⟩
  | query hA hqs hsub hsize =>
    obtain rfl := asks_probation hA
    have halone : rewriteAlone probationSetup probationServers probation = .ok ["thời gian thử việc"] :=
      by decide +kernel
    rw [halone] at hqs
    obtain rfl := Except.ok.inj hqs
    obtain rfl := List.mem_singleton.mp hsub
    exact List.mem_map.mpr ⟨probationDigests[2], List.getElem_mem _, by decide +kernel⟩
  | rerankCall hA hp h2 hb =>
    rcases hb rfl with hfalse | ⟨r, e, herr⟩
    · exact hfalse.elim
    · cases herr
  | @rerank b query hits hA hp h2 hb =>
    obtain rfl := asks_probation hA
    cases b with
    | llm =>
      rcases hb rfl with hfalse | ⟨r, e, herr⟩
      · exact hfalse.elim
      · cases herr
    | cohere =>
      have htext : keyText (rerankParts "rerank-v3.5" probation hits) =
          keyText [.text "rerank-v3.5", .text probation,
            .json (.arr ((hits.map SearchHit.pointId).map Value.str))] := by
        rw [List.map_map]
        rfl
      show keyText (rerankParts "rerank-v3.5" probation hits) ∈ _
      rw [htext]
      rcases probation_pool hp h2 with hids | hids
      · rw [hids]
        exact List.mem_map.mpr ⟨probationDigests[3], List.getElem_mem _, by decide +kernel⟩
      · rw [hids]
        exact List.mem_map.mpr ⟨probationDigests[4], List.getElem_mem _, by decide +kernel⟩

private theorem probation_shareable :
    Shareable probationSetup probationServers False probationCalls {p | p ∈ probationPoints} := by
  refine ⟨fun _ => rfl, ?_, ?_, ?_, ?_⟩
  · intro r resp n ss hresp hss
    obtain rfl := Except.ok.inj hresp
    obtain rfl : [] = ss := Except.ok.inj hss
    intro e he
    cases he
  · intro p hp p' hp' heq
    have hall : ∀ p ∈ probationPoints, ∀ p' ∈ probationPoints, p.id = p'.id → p = p' := by decide +kernel
    exact hall p hp p' hp' heq
  · intro hboth
    rcases hboth.2 rfl with hfalse | ⟨r, e, herr⟩
    · exact hfalse.elim
    · cases herr
  · intro u u' hu hu' heq
    have hdigests : (probationDigests.map Prod.snd).Nodup := by decide +kernel
    exact digestTable_inj hdigests (probation_texts hu) (probation_texts hu') heq

end Probation

/-- The points do not change by the calls. -/
private theorem llmReply_points (up : Upstream) (host : Nat) (o : LlmOp) (w : LlmWorld) :
    (llmReply up host o w).2.points = w.points := by
  cases o <;> rfl

private theorem exec_points {α : Type} (up : Upstream) (host : Nat) (p : Llm α) (w : LlmWorld) :
    (p.exec (llmReply up host) w).2.points = w.points := by
  induction p generalizing w with
  | done r => rfl
  | call o k ih => exact (ih _ _).trans (llmReply_points up host o w)

/-- A step of the service leaves the points as they are, unless it is one of the environment. -/
private theorem step_points {x : RetrievalSetup} {up : Upstream} {s s' : PipelineState} {l : PipelineLabel}
    (hl : ∀ e, l ≠ .env e) (h : (pipelineService x up).step s l = some s') :
    s'.world.points = s.world.points := by
  rcases step_cases h with ⟨_, _, rfl, -, rfl⟩ | ⟨q, out, r, o, k, rfl, -, rfl⟩ | ⟨e, _, rfl, -, -⟩
  · rfl
  · rw [resume_world]
    rcases Outcome.world_eq ((pipelineService x up).handle q r) o s.world out with hw | hw
    · rw [hw]
    · rw [hw]
      exact llmReply_points up r.host o s.world
  · exact absurd rfl (hl e)

/-- A retrieval that is served alone after some other calls. -/
private theorem retrieves_serve {x : RetrievalSetup} {up : Upstream} {A : Set PipelineCall} {Pts : Set Point}
    {query : String} {ps : List Point} {before : List PipelineLabel} {s : PipelineState} (pid : Nat)
    (tenantId userId : Uuid) (own : List Point) (hps : ∀ p ∈ ps, p ∈ Pts)
    (hbefore : RunOf x up False A Pts (idle (.cold ps)) before s) (hfree : s.procs pid = none)
    (hown : s.world.points.filter (ownPoint tenantId userId) = own)
    (hA : .retrieve [] query tenantId userId ∈ A) :
    ∃ after t, RunOf x up False A Pts s (.start pid ⟨0, .retrieve [] query tenantId userId⟩ :: after) t ∧
      t.world = (((PipelineCall.retrieve [] query tenantId userId).program x).exec
        (llmReply up 0) s.world).2 ∧
      (∀ q, q ≠ pid → t.procs q = s.procs q) ∧
      Retrieves x up False A Pts query tenantId userId own
        (((PipelineCall.retrieve [] query tenantId userId).program x).exec (llmReply up 0) s.world).1 := by
  let S := pipelineService x up
  let req : HostedPipeline := ⟨0, .retrieve [] query tenantId userId⟩
  obtain ⟨n, hrun⟩ := run_serve (S := S) req hfree
  have hlabel : ∀ l ∈ (.start pid req :: List.replicate n (.call pid .ok) : List PipelineLabel),
      l = .start pid req ∨ l = .call pid .ok := by
    intro l hl
    rcases List.mem_cons.mp hl with rfl | hl
    · exact Or.inl rfl
    · exact Or.inr (List.mem_replicate.mp hl).2
  have hrunOf : RunOf x up False A Pts s (.start pid req :: List.replicate n (.call pid .ok))
      (s.set ((req.call.program x).exec (llmReply up 0) s.world).2 pid
        (some ⟨req, .done ((req.call.program x).exec (llmReply up 0) s.world).1⟩)) := by
    refine ⟨?_, ?_, ?_, hrun⟩
    · intro l hl
      rcases hlabel l hl with rfl | rfl
      · exact hA
      · trivial
    · intro l hl
      rcases hlabel l hl with rfl | rfl <;> trivial
    · intro l hl hraise
      rcases hlabel l hl with rfl | rfl <;> exact hraise
  refine ⟨_, _, hrunOf, rfl, fun q hq => State.set_procs_of_ne _ _ _ hq, ?_⟩
  refine ⟨ps, before, List.replicate n (.call pid .ok), s, _, pid, 0, [], hps, hbefore, hrunOf, ?_, ?_, ?_,
    State.set_procs_self ..⟩
  · refine meets_inv (L := fun l => ∀ e, l ≠ .env e) ?_ hown ?_
    · intro s l s' hl hs hstep
      rw [step_points hl hstep]
      exact hs
    · intro l hl e
      rcases hlabel l hl with rfl | rfl
      · intro h
        cases h
      · intro h
        cases h
  · intro r hr
    have hcall := (List.mem_replicate.mp hr).2
    cases hcall
  · intro e applied hr
    have hcall := (List.mem_replicate.mp hr).2
    cases hcall

/-- The retrieval of the first user returns the same after one of the second user. -/
theorem retrieve_isolated_probation :
    (((PipelineCall.retrieve [] probation 2 1).program probationSetup).exec (llmReply probationServers 0)
        (((PipelineCall.retrieve [] probation 2 3).program probationSetup).exec
          (llmReply probationServers 0) (.cold probationPoints)).2).1 =
      (((PipelineCall.retrieve [] probation 2 1).program probationSetup).exec (llmReply probationServers 0)
        (.cold probationPoints)).1 := by
  have hA : ∀ userId, .retrieve [] probation 2 userId ∈ probationCalls :=
    fun userId => ⟨[], 2, userId, rfl⟩
  have hstart : RunOf probationSetup probationServers False probationCalls {p | p ∈ probationPoints}
      (idle (.cold probationPoints)) [] (idle (.cold probationPoints)) :=
    ⟨fun _ hl => absurd hl List.not_mem_nil, fun _ hl => absurd hl List.not_mem_nil,
      fun _ hl => absurd hl List.not_mem_nil, rfl⟩
  obtain ⟨-, -, -, -, -, halone⟩ :=
    retrieves_serve 0 2 1 (probationPoints.take 2) (fun _ hp => hp) hstart rfl (by decide +kernel) (hA 1)
  obtain ⟨after, t, hother, hworld, hprocs, -⟩ :=
    retrieves_serve 0 2 3 (probationPoints.drop 2) (fun _ hp => hp)
    hstart rfl (by decide +kernel) (hA 3)
  have hpoints : t.world.points.filter (ownPoint 2 1) = probationPoints.take 2 := by
    rw [hworld, exec_points]
    decide +kernel
  obtain ⟨-, -, -, -, -, hafter⟩ := retrieves_serve 1 2 1 (probationPoints.take 2) (fun _ hp => hp) hother
    (hprocs 1 (by decide)) hpoints (hA 1)
  rw [hworld] at hafter
  exact retrieve_isolated probation_shareable hafter halone

end LegalRag
