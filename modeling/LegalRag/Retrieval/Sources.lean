import LegalRag.Retrieval.Isolation

/-!
# Where the chunks come from

Whatever the caches, the models and the rerankers reply, a chunk that `retrieve_and_rerank` returns is of
a point that the vector store has for the user in the tenant (`retrieveAndRerank_sources`).  And each of
these points is returned with some replies, if the reranker gets any candidates (`retrieves_point`).
-/

namespace LegalRag

open Calls Prog

/-- A search returns at most as many points as it is asked for, all of `Pts` and passing its conditions;
other replies may be anything. -/
def FromPoints (Pts : Set Point) : (o : LlmCalls.Op) → Except LlmErr (LlmCalls.Resp o) → Prop
  | .search _ must limit, r =>
    ∀ found, r = .ok found → found.length ≤ limit ∧ ∀ f ∈ found, f.1 ∈ Pts ∧ passes must f.1 = true
  | _, _ => True

/-- With such replies the program returns a value of `V`, or raises. -/
abbrev ReturnsFrom {α : Type} (Pts : Set Point) (V : α → Prop) (p : Llm α) : Prop :=
  p.Accords (FromPoints Pts) (fun _ => True) (Ends V fun _ => True)

/-- The chunk of a point, with any score. -/
def ChunkOf (p : Point) (c : RetrievedChunk) : Prop :=
  ∃ score final, c = RankedHit.chunk ⟨hitOf (p, score), final⟩

section Sources

variable {α β : Type} {Pts : Set Point} {U : α → Prop} {V : β → Prop} {x : RetrievalSetup}
    {tenantId userId : Uuid}

private theorem returnsFrom_any (p : Llm α) : ReturnsFrom Pts (fun _ => True) p := by
  induction p with
  | done r => cases r <;> trivial
  | call o k ih => exact ⟨trivial, fun r _ => ih r⟩

private theorem returnsFrom_bind {p : Llm α} {f : α → Llm β} (hp : ReturnsFrom Pts U p)
    (hf : ∀ a, U a → ReturnsFrom Pts V (f a)) : ReturnsFrom Pts V (p >>= f) := by
  refine accords_bind (hp.mono fun r hr => ?_)
  cases r with
  | error e => trivial
  | ok a => exact hf a hr

/-- A value that is looked up, or not. -/
private theorem returnsFrom_ite {b : Bool} {p q : Llm α} {f : α → Llm β} (hf : ∀ a, ReturnsFrom Pts V (f a)) :
    ReturnsFrom Pts V (if b = true then p >>= f else q >>= f) := by
  split
  · exact returnsFrom_bind (returnsFrom_any p) fun a _ => hf a
  · exact returnsFrom_bind (returnsFrom_any q) fun a _ => hf a

private theorem returnsFrom_handle {p : Llm β} {c : LlmErr → Llm β} (hp : ReturnsFrom Pts V p)
    (hc : ∀ e, ReturnsFrom Pts V (c e)) : ReturnsFrom Pts V (p.handle c) := by
  refine accords_handle (hp.mono fun r hr => ?_)
  cases r with
  | error e => exact hc e
  | ok a => exact hr

/-! ### Search -/

private theorem vectorSearch_sources (query : String) (topK : Nat) :
    ReturnsFrom Pts (fun hits => ∀ h ∈ hits, FoundIn Pts tenantId userId h)
      (vectorSearch x query tenantId (some userId) none topK) := by
  unfold vectorSearch
  refine returnsFrom_bind (returnsFrom_any _) fun vectors _ => ?_
  rcases vectors with _ | ⟨v, _ | ⟨v', vs⟩⟩
  · trivial
  · refine accords_call trivial fun r hr => ?_
    cases r with
    | error e => trivial
    | ok found =>
      intro h hh
      obtain ⟨f, hf, rfl⟩ := List.mem_map.mp hh
      obtain ⟨hin, hpasses⟩ := (hr found rfl).2 f hf
      exact ⟨f.1, hin, hpasses, rfl⟩
  · trivial

/-! ### Rerank -/

private theorem hit_of_mem_materializeFloats {hits : List SearchHit} {f : Nat → Option PyFloat} {topK : Int}
    {r : RankedHit} (h : r ∈ materializeFloats hits f topK) : r.hit ∈ hits := by
  have hmem := (List.mem_insertionSort _).mp (List.mem_of_mem_take h)
  obtain ⟨a, ha, rfl⟩ := List.mem_map.mp hmem
  exact List.mem_of_getElem? (List.mem_zipIdx_iff_getElem?.mp ha)

private theorem rerankThrough_sources (key : String) (fetch : Llm Scores) (hits : List SearchHit) (topK : Int)
    (useCache : Bool) :
    ReturnsFrom Pts (fun rs => ∀ r ∈ rs, r.hit ∈ hits) (rerankThrough key fetch hits topK useCache) := by
  have hfloats : ∀ ss, ReturnsFrom Pts (fun rs => ∀ r ∈ rs, r.hit ∈ hits)
    (pure (materializeFloats hits (scoreAt ss) topK)) :=
    fun ss r hr => hit_of_mem_materializeFloats hr
  rcases hits with _ | ⟨a, _ | ⟨b, hits⟩⟩
  · intro r hr
    cases hr
  · intro r hr
    rw [List.mem_singleton.mp hr]
    exact List.mem_cons_self ..
  · unfold rerankThrough
    refine returnsFrom_ite fun found => ?_
    cases found with
    | some ss => exact hfloats ss
    | none =>
      refine returnsFrom_bind (returnsFrom_any fetch) fun ss _ => ?_
      by_cases hkeep : useCache ∧ ss ≠ []
      · rw [if_pos hkeep]
        exact returnsFrom_bind (returnsFrom_any _) fun _ _ => hfloats ss
      · rw [if_neg hkeep]
        exact hfloats ss

private theorem rerank_sources (query : String) (hits : List SearchHit) (topK : Int) (useCache : Bool) :
    ReturnsFrom Pts (fun rs => ∀ r ∈ rs, r.hit ∈ hits) (rerank x query hits topK useCache) := by
  have hsub : ∀ rs : List RankedHit, (∀ r ∈ rs, r.hit ∈ candidates x hits) → ∀ r ∈ rs, r.hit ∈ hits :=
    fun rs h r hr => (candidates_sublist hits).subset (h r hr)
  have hmodel : ReturnsFrom Pts (fun rs => ∀ r ∈ rs, r.hit ∈ hits)
    (llmRerank x query (candidates x hits) topK useCache) :=
    (rerankThrough_sources _ _ _ topK useCache).mono fun r hr => by
      cases r with
      | error e => trivial
      | ok rs => exact hsub rs hr
  unfold rerank
  by_cases hnil : hits = []
  · rw [if_pos hnil]
    intro r hr
    cases hr
  rw [if_neg hnil]
  by_cases hcohere : x.rerank.cohereEnabled = true
  · rw [if_pos hcohere]
    refine returnsFrom_handle ((rerankThrough_sources _ _ _ topK useCache).mono fun r hr => ?_) fun _ =>
      hmodel
    cases r with
    | error e => trivial
    | ok rs => exact hsub rs hr
  · rw [if_neg hcohere]
    exact hmodel

/-! ### The whole -/

/-- All chunks are of points of the user. -/
theorem retrieveAndRerank_sources (order : List Nat) (query : String) (topKSearch : Nat) (topKFinal : Int)
    (rewrite : Bool) :
    ReturnsFrom Pts (fun chunks => ∀ c ∈ chunks, ∃ p ∈ Pts, ownPoint tenantId userId p = true ∧
      ChunkOf p c)
      (retrieveAndRerank x order query tenantId (some userId) none topKSearch topKFinal rewrite) := by
  unfold retrieveAndRerank
  refine returnsFrom_ite fun queries => ?_
  have hsearches : List.Forall₂ (fun (_ : String) p => ReturnsFrom Pts
    (fun hits => ∀ h ∈ hits, FoundIn Pts tenantId userId h) p) queries
      (queries.map fun q => vectorSearch x q tenantId (some userId) none topKSearch) := by
    rw [List.forall₂_map_right_iff]
    exact List.forall₂_same.mpr fun q _ => vectorSearch_sources q topKSearch
  refine returnsFrom_bind (accords_gather order hsearches) fun results hresults => ?_
  refine returnsFrom_bind (rerank_sources query (poolOf topKSearch results) topKFinal true)
    fun ranked hranked => ?_
  intro c hc
  obtain ⟨r, hr, rfl⟩ := List.mem_map.mp hc
  obtain ⟨batch, hbatch, hmem⟩ := mem_poolOf (hranked r hr)
  obtain ⟨q, -, hfound⟩ := Related.exists_left hresults hbatch
  obtain ⟨p, hp, hown, heq⟩ := hfound r.hit hmem
  exact ⟨p, hp, hown, r.hit.score, r.score, by rw [← heq]⟩

/-! ### A point that is returned -/

/-- The caches have the question as its only query and some vector of it, and the vector store has one
point. -/
def oneStored (query : String) (p : Point) : Handler LlmCalls LlmErr Unit := fun o w =>
  match o with
  | .cacheGet _ => (.ok (some (.queries [query])), w)
  | .lruEmbedGet _ => (.ok (some []), w)
  | .search _ must limit => (.ok (([(p, 0)].filter fun f => passes must f.1).take limit), w)
  | _ => (.error ⟨"Connection error."⟩, w)

theorem oneStored_fromPoints {query : String} {p : Point} (hp : p ∈ Pts) (o : LlmCalls.Op) (w : Unit) :
    FromPoints Pts o (oneStored query p o w).1 := by
  cases o with
  | search vector must limit =>
    intro found hfound
    obtain rfl := Except.ok.inj hfound
    refine ⟨List.length_take_le _ _, fun f hf => ?_⟩
    obtain ⟨hmem, hpasses⟩ := List.mem_filter.mp (List.mem_of_mem_take hf)
    rw [List.mem_singleton.mp hmem] at hpasses ⊢
    exact ⟨hp, hpasses⟩
  | _ => trivial

/-- A single hit is returned as it is. -/
private theorem rerank_exec_single {W : Type} {h : Handler LlmCalls LlmErr W} {w : W} (query : String)
    (hit : SearchHit) (topK : Int) (hmax : 1 ≤ x.rerank.rerankMaxCandidates) :
    (rerank x query [hit] topK true).exec h w = (.ok [⟨hit, .finite hit.score⟩], w) := by
  have hcandidates : candidates x [hit] = [hit] := if_neg (by simpa using hmax)
  unfold rerank
  rw [if_neg (List.cons_ne_nil _ _), hcandidates]
  by_cases hcohere : x.rerank.cohereEnabled = true
  · rw [if_pos hcohere]
    rfl
  · rw [if_neg hcohere]
    rfl

theorem retrieves_point {query : String} {p : Point} (hown : ownPoint tenantId userId p = true)
    (hmax : 1 ≤ x.rerank.rerankMaxCandidates) :
    ((retrieveAndRerank x [] query tenantId (some userId) none 20 5 true).exec (oneStored query p) ()).1 =
      .ok [RankedHit.chunk ⟨hitOf (p, 0), .finite 0⟩] := by
  have hsearch : (vectorSearch x query tenantId (some userId) none 20).exec (oneStored query p) () =
      (.ok [hitOf (p, 0)], ()) := by
    have hfilter : [(p, (0 : ℚ))].filter
      (fun f => passes (mustConditions tenantId (some userId) none) f.1) = [(p, 0)] :=
      List.filter_eq_self.mpr fun f hf => List.mem_singleton.mp hf ▸ hown
    show (Except.ok
      ((([(p, (0 : ℚ))].filter fun f => passes (mustConditions tenantId (some userId) none) f.1).take
      20).map hitOf), ()) = _
    rw [hfilter]
    rfl
  have hrewrite : (rewriteQuery x query true).exec (oneStored query p) () = (.ok [query], ()) := rfl
  have hgather : Prog.gather [] [vectorSearch x query tenantId (some userId) none 20] =
    vectorSearch x query tenantId (some userId) none 20 >>= fun hits => pure [hits] := rfl
  unfold retrieveAndRerank
  rw [if_pos rfl, exec_bind, hrewrite]
  show ((Prog.gather [] [vectorSearch x query tenantId (some userId) none 20] >>= fun results =>
    rerank x query (poolOf 20 results) 5 true >>= fun ranked => pure (ranked.map RankedHit.chunk)).exec
      (oneStored query p) ()).1 = _
  rw [hgather, exec_bind, exec_bind, hsearch]
  show ((rerank x query [hitOf (p, 0)] 5 true >>= fun ranked => pure (ranked.map RankedHit.chunk)).exec
    (oneStored query p) ()).1 = _
  rw [exec_bind, rerank_exec_single _ _ _ hmax]
  rfl

end Sources

end LegalRag
