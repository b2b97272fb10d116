import LegalRag.Retrieval.Alone

/-!
# What a rerank returns

Whatever Cohere and the model answer, and whatever earlier calls have left in the caches, a rerank returns
as many of the first candidates as it should, each once, in the order of scores that a reranker gave to
their positions (`rerank_contract`).
-/

namespace LegalRag

open Calls Prog Service

/-- A call of a reranker in the process `host`. -/
structure RerankCall where
  host : Nat
  query : String
  hits : List SearchHit
  topK : Int
  useCache : Bool

/-- The caches, and the servers as they answer now. -/
structure ServedWorld where
  caches : LlmWorld
  servers : Upstream

/-- What happens besides the calls: to the caches, or the servers answer differently from now on. -/
inductive ServerEnv where
  | caches (e : CacheEnv)
  | servers (up : Upstream)

def ServerEnv.step : ServerEnv → ServedWorld → ServedWorld
  | .caches e, w => { w with caches := e.step w.caches }
  | .servers up, w => { w with servers := up }

def servedReply (host : Nat) (o : LlmCalls.Op) (w : ServedWorld) :
    Except LlmErr (LlmCalls.Resp o) × ServedWorld :=
  let r := llmReply w.servers host o w.caches
  (r.1, { w with caches := r.2 })

/-- Any number of processes that rerank and share a Redis. -/
def rerankService (run : RerankCall → Llm (List RankedHit)) :
    Service LlmCalls LlmErr ServedWorld RerankCall ServerEnv (List RankedHit) where
  program := run
  enter _ w := w
  handle _ c := servedReply c.host
  env e w := some (e.step w)

/-- All that is cached is as `K` says, and the servers are of `Ups`. -/
structure ServedWorld.All (K : Known) (Ups : Set Upstream) (w : ServedWorld) : Prop where
  caches : w.caches.All K
  servers : w.servers ∈ Ups

/-- Servers are replaced by ones of `Ups` only. -/
def ServerEnv.Within (Ups : Set Upstream) : ServerEnv → Prop
  | .caches _ => True
  | .servers up => up ∈ Ups

section Setup

variable (x : RetrievalSetup)

/-- The first `rerank_max_candidates` hits. -/
def RerankCall.pool (c : RerankCall) : List SearchHit := c.hits.take x.rerank.rerankMaxCandidates.toNat

/-- A reply with finite scores, on which `llm_rerank` does not raise. -/
def FiniteReply (resp : ChatCompletion) : Prop := ∀ n, ∃ ss, scoresOf x n resp = .ok ss ∧ ss.Finite

/-- The model gives such replies; Cohere may answer anything, or raise. -/
def Answering (up : Upstream) : Prop :=
  ∀ query hits topK, ∃ resp, up.create (rerankCall x query hits topK).request = .ok resp ∧ FiniteReply x resp

/-- The uses of the caches by the calls `A`. -/
inductive RerankUsed (A : Set RerankCall) : CacheUse → Prop where
  | completion {c : RerankCall} (hA : c ∈ A) :
      RerankUsed A (.completion (rerankCall x c.query (c.pool x) c.topK))
  | scores {c : RerankCall} {b : Backend} (hA : c ∈ A) (hb : b = .cohere → x.rerank.cohereEnabled) :
      RerankUsed A (.rerank b c.query (c.pool x) c.topK)

variable (Ups : Set Upstream) (A : Set RerankCall)

/-- The reranker `b` gave these scores to the candidates of the call, in it or in one of `A` with the same
question and candidates. -/
def Gave (b : Backend) (c : RerankCall) (ss : Scores) : Prop :=
  ∃ up ∈ Ups, ∃ c' ∈ A, ∃ b' : Backend, b'.scores x up c'.query (c'.pool x) c'.topK = .ok ss ∧
    (c'.pool x).map SearchHit.pointId = (c.pool x).map SearchHit.pointId ∧
    ((x.rerank.cohereEnabled → Apart x.rerank.cohereRerankModel x.llm.llmModelDefault) → b' = b ∧
      c'.query = c.query)

/-- The result of a rerank. -/
structure RerankContract (c : RerankCall) (rs : List RankedHit) : Prop where
  length : (rs.length : Int) = min c.topK (min c.hits.length x.rerank.rerankMaxCandidates)
  distinct : (rs.map fun r => r.hit.pointId).Nodup
  ordered : ∃ l : List ℚ, rs.map RankedHit.score = l.map .finite ∧ l.Pairwise fun a b => b ≤ a
  scored : (∃ h, c.pool x = [h] ∧ rs = [⟨h, .finite h.score⟩]) ∨
    ∃ b ss, (b = .cohere → x.rerank.cohereEnabled) ∧ Gave x Ups A b c ss ∧
      ∀ r ∈ rs, ∃ i, (c.pool x)[i]? = some r.hit ∧
        r.score = (scoreAt ss i).getD (.finite (r.hit.score * (1 / 2)))

end Setup

/-! ### Finite scores -/

section Finite

variable {hits : List SearchHit} {ss : Scores} {topK : Int}

private theorem Scores.Finite.scoreAt (h : ss.Finite) {i : Nat} {score : PyFloat}
    (hi : scoreAt ss i = some score) : ∃ q, score = .finite q := by
  obtain ⟨e, he, rfl⟩ := Option.map_eq_some_iff.mp hi
  exact h e (List.mem_of_find?_eq_some he)

/-- Finite scores as numbers. -/
def finiteScore (ss : Scores) (i : Nat) : Option ℚ := (scoreAt ss i).bind PyFloat.json

def RerankResult.ranked (r : RerankResult) : RankedHit := ⟨r.hit, .finite r.score⟩

private theorem rankedHit_finite (h : ss.Finite) (a : SearchHit × Nat) :
    rankedHit (scoreAt ss) a = (rerankResult (finiteScore ss) a).ranked := by
  unfold rankedHit rerankResult finiteScore RerankResult.ranked
  cases hscore : scoreAt ss a.2 with
  | none => rfl
  | some score =>
    obtain ⟨q, rfl⟩ := h.scoreAt hscore
    rfl

/-- Finite scores are sorted as numbers are. -/
private theorem materializeFloats_finite (h : ss.Finite) :
    materializeFloats hits (scoreAt ss) topK =
    (materialize hits (finiteScore ss) topK).map RerankResult.ranked := by
  have hranked : hits.zipIdx.map (rankedHit (scoreAt ss)) =
      (hits.zipIdx.map (rerankResult (finiteScore ss))).map RerankResult.ranked := by
    rw [List.map_map]
    exact List.map_congr_left fun a _ => rankedHit_finite h a
  have hsort : ((hits.zipIdx.map (rerankResult (finiteScore ss))).map RerankResult.ranked).insertionSort
      (fun a b => ¬ a.score.lt b.score) =
        (Ranked.ranked RerankResult.score (hits.zipIdx.map (rerankResult (finiteScore ss)))).map
          RerankResult.ranked := by
    refine (List.map_insertionSort _ _ _ _ ?_).symm
    intro a _ b _
    unfold RerankResult.ranked PyFloat.lt
    simp
  unfold materializeFloats materialize Redis.sliceTo
  rw [hranked, hsort, List.map_take, List.length_map]

private theorem length_materialize (htop : 0 ≤ topK) (f : Nat → Option ℚ) :
    ((materialize hits f topK).length : Int) = min topK hits.length := by
  unfold materialize Redis.sliceTo Redis.position
  rw [List.length_take, Ranked.length_ranked, List.length_map, List.length_zipIdx, if_neg (not_lt.mpr htop)]
  omega

private theorem nodup_materialize (hids : (hits.map SearchHit.pointId).Nodup) (f : Nat → Option ℚ) :
    ((materialize hits f topK).map fun r => r.hit.pointId).Nodup := by
  have hall : (hits.zipIdx.map (rerankResult f)).map (fun r => r.hit.pointId) =
      hits.map SearchHit.pointId := by
    rw [List.map_map]
    conv_rhs => rw [← List.zipIdx_map_fst 0 hits, List.map_map]
    rfl
  refine List.Nodup.sublist ((List.take_sublist ..).map _) ?_
  exact ((Ranked.perm_ranked RerankResult.score _).map fun r => r.hit.pointId).nodup_iff.mpr (hall ▸ hids)

private theorem pairwise_materialize (f : Nat → Option ℚ) :
    (materialize hits f topK).Pairwise fun a b => b.score ≤ a.score :=
  (Ranked.pairwise_ranked RerankResult.score _).sublist (List.take_sublist ..)

private theorem mem_materialize {f : Nat → Option ℚ} {r : RerankResult} (h : r ∈ materialize hits f topK) :
    ∃ i, hits[i]? = some r.hit ∧ r.score = (f i).getD (r.hit.score * (1 / 2)) := by
  obtain ⟨a, ha, rfl⟩ := List.mem_map.mp (Ranked.mem_ranked.mp (List.mem_of_mem_take h))
  exact ⟨a.2, List.mem_zipIdx_iff_getElem?.mp ha, rfl⟩

end Finite

/-! ### What the caches keep -/

/-- All caches keep values that one of the servers has given. -/
def rerankKnown (x : RetrievalSetup) (Ups : Set Upstream) (A : Set RerankCall) : Known where
  complete key v := ∃ up ∈ Ups, Kept x up (RerankUsed x A) key (.completion v)
  embed _ _ := True
  redis key v := ∃ up ∈ Ups, Kept x up (RerankUsed x A) key v
  points _ := True

section Answers

variable {x : RetrievalSetup} {Ups : Set Upstream} {A : Set RerankCall} {F : Prop} {c : RerankCall}
    {b : Backend}

/-- The key of the scores. -/
def RerankCall.key (x : RetrievalSetup) (c : RerankCall) (b : Backend) : String :=
  CacheUse.key x (.rerank b c.query (c.pool x) c.topK)

/-- A reranker gave the scores to a call with this key. -/
def GaveKey (x : RetrievalSetup) (Ups : Set Upstream) (A : Set RerankCall) (key : String)
    (ss : Scores) : Prop :=
  ∃ up ∈ Ups, ∃ c' ∈ A, ∃ b' : Backend, (b' = .cohere → x.rerank.cohereEnabled) ∧ c'.key x b' = key ∧
    b'.scores x up c'.query (c'.pool x) c'.topK = .ok ss

private theorem GaveKey.finite (hups : ∀ up ∈ Ups, Answering x up) {key : String} {ss : Scores}
    (h : GaveKey x Ups A key ss) : ss.Finite := by
  obtain ⟨up, hup, c', -, b', -, -, hss⟩ := h
  cases b' with
  | cohere =>
    obtain ⟨results, -, rfl⟩ : ∃ results, up.rerank (cohereRequest x c'.query (c'.pool x)) = .ok results ∧
        cohereScores (c'.pool x).length results = ss := map_eq_ok hss
    exact cohereScores_finite _ _
  | llm =>
    obtain ⟨resp, hresp, hfinite⟩ := hups up hup c'.query (c'.pool x) c'.topK
    obtain ⟨ss', hss', hfin⟩ := hfinite (c'.pool x).length
    unfold Backend.scores at hss
    rw [hresp] at hss
    obtain rfl : ss' = ss := Except.ok.inj (hss'.symm.trans hss)
    exact hfin

private theorem kept_of_gaveKey {key : String} {ss : Scores} (h : GaveKey x Ups A key ss) :
    (rerankKnown x Ups A).redis key (scoresValue ss) := by
  obtain ⟨up, hup, c', hc', b', hb', hkey, hss⟩ := h
  refine ⟨up, hup, _, .scores hc' hb', hkey, ?_⟩
  show (b'.scores x up c'.query (c'.pool x) c'.topK).map scoresValue = _
  rw [hss]
  rfl

/-- Under the key of a rerank are scores. -/
private theorem gaveKey_of_kept {v : CachedValue} (h : (rerankKnown x Ups A).redis (c.key x b) v) :
    ∃ ss, GaveKey x Ups A (c.key x b) ss ∧ scoresValue ss = v := by
  obtain ⟨up, hup, u, hu, hkey, hv⟩ := h
  have hns : u.ns = "rerank" := makeKey_ns u.colon_not_mem_ns (by decide) hkey
  cases hu with
  | completion hA => simp [CacheUse.ns] at hns
  | scores hA hb =>
    obtain ⟨ss, hss, rfl⟩ := map_eq_ok hv
    exact ⟨ss, ⟨up, hup, _, hA, _, hb, hkey, hss⟩, rfl⟩

variable (hsha : NoUseCollision x (RerankUsed x A))
include hsha

/-- Without collisions, calls with one key have the same candidates. -/
private theorem GaveKey.gave (hc : c ∈ A) (hb : b = .cohere → x.rerank.cohereEnabled) {ss : Scores}
    (h : GaveKey x Ups A (c.key x b) ss) : Gave x Ups A b c ss := by
  obtain ⟨up, hup, c', hc', b', hb', hkey, hss⟩ := h
  have htext := hsha _ _ (.scores hc' hb') (.scores hc hb) (makeKey_text hkey)
  have hids : (c'.pool x).map SearchHit.pointId = (c.pool x).map SearchHit.pointId := by
    have hstrings : ((c'.pool x).map SearchHit.pointId).map Json.Value.str =
        ((c.pool x).map SearchHit.pointId).map Json.Value.str := by
      rw [List.map_map, List.map_map]
      exact Json.Value.arr.inj (keyText_last htext)
    exact List.map_injective_iff.mpr (fun _ _ => Json.Value.str.inj) hstrings
  refine ⟨up, hup, c', hc', b', hss, hids, fun hapart => ?_⟩
  have hsame : b' = b := by
    cases b' with
    | cohere =>
      cases b with
      | cohere => rfl
      | llm => exact absurd htext ((hapart (hb' rfl)).keyText_ne _ _)
    | llm =>
      cases b with
      | cohere => exact absurd htext.symm ((hapart (hb rfl)).keyText_ne _ _)
      | llm => rfl
  subst hsame
  exact ⟨rfl, (keyText_triple_cancel htext).1⟩

/-- The completion cache keeps answers of the servers. -/
private theorem rerank_serves (hc : c ∈ A) :
    (rerankKnown x Ups A).Serves ((rerankCall x c.query (c.pool x) c.topK).cacheKey x.sha256)
      fun r => ∃ up ∈ Ups, r = up.create (rerankCall x c.query (c.pool x) c.topK).request := by
  have hvalue : ∀ up : Upstream, ∀ v, Kept x up (RerankUsed x A)
      (CacheUse.key x (.completion (rerankCall x c.query (c.pool x) c.topK))) v →
        ∃ resp, v = .completion resp ∧ up.create (rerankCall x c.query (c.pool x) c.topK).request =
          .ok resp := by
    intro up v hv
    obtain ⟨u, hu, hkey, hv⟩ := hv
    have hns : u.ns = "llm" := makeKey_ns u.colon_not_mem_ns (by decide) hkey
    cases hu with
    | scores hA hb => simp [CacheUse.ns] at hns
    | @completion d hA =>
      obtain ⟨resp, hresp, rfl⟩ := map_eq_ok hv
      refine ⟨resp, rfl, ?_⟩
      have htext := hsha _ _ (.completion hA) (.completion hc) (makeKey_text hkey)
      rw [← (request_eq_iff (sameKeyInputs_of_keyText htext) rfl rfl).mpr ⟨rfl, rfl⟩]
      exact hresp
  refine ⟨?_, ?_, ?_⟩
  · intro v hv
    obtain ⟨up, hup, hkept⟩ := hv
    obtain ⟨resp, hresp, hcreate⟩ := hvalue up _ hkept
    obtain rfl := CachedValue.completion.inj hresp
    exact ⟨up, hup, hcreate.symm⟩
  · intro found hfound
    obtain ⟨up, hup, hkept⟩ := hfound
    obtain ⟨resp, rfl, -⟩ := hvalue up _ hkept
    exact ⟨resp, rfl, up, hup, hkept⟩
  · intro v hv
    obtain ⟨up, hup, hcreate⟩ := hv
    have hkept : Kept x up (RerankUsed x A)
      (CacheUse.key x (.completion (rerankCall x c.query (c.pool x) c.topK))) (.completion v) := by
      refine kept_of_value (.completion hc) ?_
      show (up.create _).map CachedValue.completion = _
      rw [← hcreate]
      rfl
    exact ⟨⟨up, hup, hkept⟩, up, hup, hkept⟩

/-- The result is made of scores that were given to the candidates; those of the model are always there.
-/
private theorem run_answers (hups : ∀ up ∈ Ups, Answering x up) (hc : c ∈ A)
    (hb : b = .cohere → x.rerank.cohereEnabled) :
    (b.run x c.query (c.pool x) c.topK c.useCache).Accords
      (MayFail F (RepliesOf (rerankKnown x Ups A) Ups)) (Writes (rerankKnown x Ups A))
      (OrFails F fun r => ∃ scores, (2 ≤ (c.pool x).length →
        (∀ ss, scores = .ok ss → Gave x Ups A b c ss ∧ ss.Finite) ∧ (b = .llm → ∃ ss, scores = .ok ss)) ∧
          r = rankBy (c.pool x) c.topK scores) := by
  let V : Except LlmErr Scores → Prop := fun scores =>
    (∀ ss, scores = .ok ss → GaveKey x Ups A (c.key x b) ss) ∧ (b = .llm → ∃ ss, scores = .ok ss)
  have hfinite : 2 ≤ (c.pool x).length → c.useCache → ∀ ss, V (.ok ss) → ss.Finite :=
    fun _ _ ss hss => (hss.1 ss rfl).finite hups
  have hread : 2 ≤ (c.pool x).length → c.useCache → ∀ v, (rerankKnown x Ups A).redis (c.key x b) v →
      ∃ ss, V (.ok ss) ∧ scoresValue ss = v := by
    intro _ _ v hv
    obtain ⟨ss, hss, rfl⟩ := gaveKey_of_kept hv
    refine ⟨ss, ⟨fun ss' hss' => ?_, fun _ => ⟨ss, rfl⟩⟩, rfl⟩
    obtain rfl := Except.ok.inj hss'
    exact hss
  have hwrite : 2 ≤ (c.pool x).length → c.useCache → ∀ ss, V (.ok ss) →
      (rerankKnown x Ups A).redis (c.key x b) (scoresValue ss) :=
      fun _ _ ss hss => kept_of_gaveKey (hss.1 ss rfl)
  have hrun : (b.run x c.query (c.pool x) c.topK c.useCache).Accords
    (MayFail F (RepliesOf (rerankKnown x Ups A) Ups)) (Writes (rerankKnown x Ups A))
      (OrFails F fun r => ∃ scores, (2 ≤ (c.pool x).length → V scores) ∧
        r = rankBy (c.pool x) c.topK scores) := by
    cases b with
    | cohere =>
      refine rerankThrough_answers hfinite hread hwrite fun _ => ?_
      -- what Cohere answers is an error or scores
      refine accords_call_mayFail trivial fun r hr => ?_
      obtain ⟨up, hup, rfl⟩ : ∃ up ∈ Ups, r = up.rerank (cohereRequest x c.query (c.pool x)) := hr
      cases hreply : up.rerank (cohereRequest x c.query (c.pool x)) with
      | error e =>
        refine Or.inl ⟨fun ss hss => ?_, fun hllm => ?_⟩
        · cases hss
        · cases hllm
      | ok results =>
        refine Or.inl ⟨fun ss hss => ?_, fun hllm => ?_⟩
        swap
        · cases hllm
        refine ⟨up, hup, c, hc, .cohere, hb, rfl, ?_⟩
        unfold Backend.scores
        rw [hreply]
        exact hss
    | llm =>
      refine rerankThrough_answers hfinite hread hwrite fun _ => ?_
      refine accords_bind_mayFail (complete_answers (fun up hup => ⟨up, hup, rfl⟩) fun _ =>
        rerank_serves hsha hc) fun r hr => ?_
      obtain ⟨up, hup, rfl⟩ := hr
      obtain ⟨resp, hresp, hreply⟩ := hups up hup c.query (c.pool x) c.topK
      obtain ⟨ss, hss, -⟩ := hreply (c.pool x).length
      rw [hresp]
      show OrFails F V (scoresOf x (c.pool x).length resp)
      rw [hss]
      refine Or.inl ⟨fun ss' hss' => ?_, fun _ => ⟨ss, rfl⟩⟩
      obtain rfl := Except.ok.inj hss'
      refine ⟨up, hup, c, hc, .llm, hb, rfl, ?_⟩
      unfold Backend.scores
      rw [hresp]
      exact hss
  refine hrun.mono fun r hr => hr.imp_left ?_
  rintro ⟨scores, hscores, rfl⟩
  refine ⟨scores, fun h2 => ⟨fun ss hss => ?_, (hscores h2).2⟩, rfl⟩
  have hgave := (hscores h2).1 ss hss
  exact ⟨hgave.gave hsha hc hb, hgave.finite hups⟩

/-- The hits are different, and some result is asked for. -/
structure RerankCall.Proper (c : RerankCall) : Prop where
  hits : c.hits ≠ []
  ids : (c.hits.map SearchHit.pointId).Nodup
  topK : 1 ≤ c.topK

omit hsha in
/-- The result that is made of finite scores. -/
private theorem contract_of_scores (hmax : 1 ≤ x.rerank.rerankMaxCandidates) (hc : c.Proper)
    (hb : b = .cohere → x.rerank.cohereEnabled) {scores : Except LlmErr Scores}
    (hscores : 2 ≤ (c.pool x).length → ∃ ss, scores = .ok ss ∧ Gave x Ups A b c ss ∧ ss.Finite) :
    ∃ rs, rankBy (c.pool x) c.topK scores = .ok rs ∧ RerankContract x Ups A c rs := by
  have htop := hc.topK
  have hlength : ((c.pool x).length : Int) = min (c.hits.length : Int) x.rerank.rerankMaxCandidates := by
    unfold RerankCall.pool
    rw [List.length_take]
    omega
  by_cases h2 : 2 ≤ (c.pool x).length
  · obtain ⟨ss, rfl, hgave, hfinite⟩ := hscores h2
    refine ⟨materializeFloats (c.pool x) (scoreAt ss) c.topK, rankBy_of_two h2 c.topK (.ok ss), ?_⟩
    rw [materializeFloats_finite hfinite]
    refine ⟨?_, ?_, ⟨(materialize (c.pool x) (finiteScore ss) c.topK).map RerankResult.score, ?_, ?_⟩, ?_⟩
    · rw [List.length_map, length_materialize (by omega), hlength]
    · rw [List.map_map]
      exact nodup_materialize (hc.ids.sublist ((List.take_sublist ..).map _)) _
    · rw [List.map_map, List.map_map]
      rfl
    · exact List.pairwise_map.mpr (pairwise_materialize _)
    · refine Or.inr ⟨b, ss, hb, hgave, ?_⟩
      intro r hr
      obtain ⟨r, hmem, rfl⟩ := List.mem_map.mp hr
      obtain ⟨i, hi, hscore⟩ := mem_materialize hmem
      have hresult : rerankResult (finiteScore ss) (r.hit, i) = r := by
        unfold rerankResult
        rw [← hscore]
      have hranked := rankedHit_finite hfinite (r.hit, i)
      rw [hresult] at hranked
      exact ⟨i, hi, (congrArg RankedHit.score hranked).symm⟩
  · have hpos : 0 < c.hits.length := List.length_pos_iff.mpr hc.hits
    obtain ⟨h, hone⟩ : ∃ h, c.pool x = [h] := List.length_eq_one_iff.mp (by omega)
    rw [hone] at hlength ⊢
    refine ⟨_, rfl, ?_, List.nodup_singleton _, ⟨[h.score], rfl, List.pairwise_singleton _ _⟩,
      Or.inl ⟨h, hone, rfl⟩⟩
    rw [← hlength]
    show (1 : Int) = min c.topK 1
    omega

omit hsha in
private theorem candidates_eq_pool (hmax : 1 ≤ x.rerank.rerankMaxCandidates) (c : RerankCall) :
    candidates x c.hits = c.pool x := by
  unfold candidates RerankCall.pool Redis.sliceTo Redis.position
  by_cases hlt : x.rerank.rerankMaxCandidates < c.hits.length
  · rw [if_pos hlt, if_neg (by omega)]
  · rw [if_neg hlt, List.take_of_length_le (by omega)]

/-- `rerank` for a call. -/
def RerankCall.rerank (x : RetrievalSetup) (c : RerankCall) : Llm (List RankedHit) :=
  LegalRag.rerank x c.query c.hits c.topK c.useCache

/-- A rerank ends with a proper result, whichever reranker makes it. -/
private theorem rerank_answers (hups : ∀ up ∈ Ups, Answering x up) (hmax : 1 ≤ x.rerank.rerankMaxCandidates)
    (hc : c ∈ A) :
    (c.rerank x).Accords (MayFail F (RepliesOf (rerankKnown x Ups A) Ups)) (Writes (rerankKnown x Ups A))
      (OrFails F fun r => c.Proper → ∃ rs, r = .ok rs ∧ RerankContract x Ups A c rs) := by
  unfold RerankCall.rerank LegalRag.rerank
  rw [candidates_eq_pool hmax]
  by_cases hnil : c.hits = []
  · rw [if_pos hnil]
    exact Or.inl fun hproper => absurd hnil hproper.hits
  rw [if_neg hnil]
  have hllm : (llmRerank x c.query (c.pool x) c.topK c.useCache).Accords
      (MayFail F (RepliesOf (rerankKnown x Ups A) Ups)) (Writes (rerankKnown x Ups A))
        (OrFails F fun r => c.Proper → ∃ rs, r = .ok rs ∧ RerankContract x Ups A c rs) := by
    have hb : Backend.llm = .cohere → x.rerank.cohereEnabled := by
      intro heq
      cases heq
    refine Accords.mono (run_answers (F := F) (b := .llm) hsha hups hc hb) fun r hr => hr.imp_left ?_
    rintro ⟨scores, hscores, rfl⟩ hproper
    refine contract_of_scores hmax hproper hb fun h2 => ?_
    obtain ⟨hgave, hthere⟩ := hscores h2
    obtain ⟨ss, hss⟩ := hthere rfl
    exact ⟨ss, hss, hgave ss hss⟩
  by_cases hcohere : x.rerank.cohereEnabled = true
  · rw [if_pos hcohere]
    refine accords_handle (Accords.mono
      (run_answers (F := F) (b := .cohere) hsha hups hc fun _ => hcohere) fun r hr => ?_)
    cases r with
    | error e => exact hllm
    | ok rs =>
      refine hr.imp_left ?_
      rintro ⟨scores, hscores, hrs⟩ hproper
      rw [hrs]
      refine contract_of_scores (b := .cohere) hmax hproper (fun _ => hcohere) fun h2 => ?_
      cases scores with
      | error e =>
        rw [rankBy_of_two h2] at hrs
        cases hrs
      | ok ss => exact ⟨ss, rfl, (hscores h2).1 ss rfl⟩
  · rw [if_neg hcohere]
    exact hllm

end Answers

/-- In every run of calls of `A` from cold caches, with servers of `Ups`, a proper call ends with a proper
result or, where calls have failed on the way, with an exception; and every call comes to its end. -/
theorem rerank_contract (x : RetrievalSetup) (hmax : 1 ≤ x.rerank.rerankMaxCandidates)
    (Ups : Set Upstream) (hups : ∀ up ∈ Ups, Answering x up) (A : Set RerankCall)
    (hsha : NoUseCollision x (RerankUsed x A)) (points : List Point) (up : Upstream) (hup : up ∈ Ups)
    (ls : List (Label LlmErr RerankCall ServerEnv))
    (t : State LlmCalls LlmErr ServedWorld RerankCall (List RankedHit))
    (hstarts : ∀ l ∈ ls, l.Starts (· ∈ A)) (hmoves : ∀ l ∈ ls, l.Moves (ServerEnv.Within Ups))
    (hrun : (rerankService (RerankCall.rerank x)).run (idle ⟨.cold points, up⟩) ls = some t) :
    (∀ pid c r, t.procs pid = some ⟨c, .done r⟩ → c.Proper →
      (∃ rs, r = .ok rs ∧ RerankContract x Ups A c rs) ∨ (∃ l ∈ ls, l.Raises) ∧ ∃ e, r = .error e) ∧
    ∀ pid c p, t.procs pid = some ⟨c, p⟩ → ∃ n t' r,
      (rerankService (RerankCall.rerank x)).run t (List.replicate n (.call pid .ok)) = some t' ∧
        t'.procs pid = some ⟨c, .done r⟩ := by
  constructor
  · intro pid c r hproc hproper
    have haccords : t.Accords (MayFail (∃ l ∈ ls, l.Raises) (RepliesOf (rerankKnown x Ups A) Ups))
      (Writes (rerankKnown x Ups A))
        (fun c => OrFails (∃ l ∈ ls, l.Raises) fun r => c.Proper → ∃ rs, r = .ok rs ∧
          RerankContract x Ups A c rs) (ServedWorld.All (rerankKnown x Ups A) Ups) := by
      refine accords_from (fun c hc => rerank_answers hsha hups hmax hc) (fun _ _ hw => hw) ?_ ?_
        (accords_idle ⟨all_cold trivial, hup⟩) hstarts hmoves ?_ hrun
      · intro pid c o w ho hw
        obtain ⟨hnext, hreply⟩ := hw.caches.call w.servers c.host ho
        exact ⟨⟨hnext, hw.servers⟩, Or.inl ⟨w.servers, hw.servers, hreply⟩⟩
      · intro e w w' he hw hstep
        obtain rfl := Option.some.inj hstep
        cases e with
        | caches e => exact ⟨hw.caches.env fun _ _ => trivial, hw.servers⟩
        | servers up => exact ⟨hw.caches, he⟩
      · intro l hl hraise o e
        exact Or.inr ⟨⟨l, hl, hraise⟩, e, rfl⟩
    rcases haccords.progs pid _ hproc with hdone | hfailed
    · exact Or.inl (hdone hproper)
    · exact Or.inr hfailed
  · intro pid c p hproc
    obtain ⟨n, hn⟩ := run_exec (S := rerankService (RerankCall.rerank x)) p hproc
    exact ⟨n, _, _, hn, State.set_procs_self ..⟩

/-! ### Two hits -/

/-- The text of the key of the completion. -/
def twoHitsCallText : String :=
  keyText (jsonCall llmDefaults rerankSystem
    ("CÂU HỎI: " ++ "thử việc" ++ "\n\nDANH SÁCH ĐOẠN:\n" ++ candidatesText twoHits ++
      "\n\nTrả JSON như đã hướng dẫn, chỉ giữ top " ++ toString (5 : Int) ++ ".")
    rerankTokens).keyParts

def twoHitsDigests : List (String × String) :=
  [(twoHitsCallText, "4e29d65e9089afbbefad4273a3a574f9368ea221e0191ebb01fec9b89ad72e19"),
    ("rerank-v3.5|thử việc|[\"p\",\"q\"]|",
      "7846c650e099231611cc9613694d49cc40fd6f2e7fad6e322388eb06d0cf3a28"),
    ("gemini-2.5-flash|thử việc|[\"p\",\"q\"]|",
      "13de1057fe1124916cb7affbe7c1b9cd7d34e2f6a7cdf9f0df3a78b9f7b0e100")]

def twoHitsSetup : RetrievalSetup where
  sha256 := digestTable twoHitsDigests
  llm := llmDefaults
  rerank := ⟨"cohere", some "co-key", "rerank-v3.5", 100⟩
  parse := {
    loads := fun raw => if raw = "\x7b\x7d" then .ok (.dict []) else .error
      ⟨.jsonDecodeError, "Expecting value: line 1 column 1 (char 0)"⟩
    int := fun _ => none
    float := fun _ => none }

/-- Cohere scores the second hit twice, and one that is not there; the model gives no scores. -/
def twoHitsServers : Upstream where
  create _ := .ok ⟨[some "\x7b\x7d"], .null⟩
  vector _ _ _ := []
  embedFailure _ := none
  rerank _ := .ok [(1, 1 / 10), (7, 1), (1, 9 / 10)]
  similarity _ _ := 0

def twoHitsCall : RerankCall := ⟨0, "thử việc", twoHits, 5, true⟩

private theorem twoHits_texts {u : CacheUse} (hu : RerankUsed twoHitsSetup {twoHitsCall} u) :
    keyText (u.parts twoHitsSetup) ∈ twoHitsDigests.map Prod.fst := by
  cases hu with
  | completion hA =>
    obtain rfl := Set.mem_singleton_iff.mp hA
    exact List.mem_map.mpr ⟨_, List.mem_cons_self .., rfl⟩
  | @scores _ b hA hb =>
    obtain rfl := Set.mem_singleton_iff.mp hA
    cases b with
    | cohere => exact List.mem_map.mpr ⟨twoHitsDigests[1], List.getElem_mem _, by decide +kernel⟩
    | llm => exact List.mem_map.mpr ⟨twoHitsDigests[2], List.getElem_mem _, by decide +kernel⟩

/-- The call of the two hits. -/
theorem rerank_contract_two : ∃ rs,
    ((twoHitsCall.rerank twoHitsSetup).exec (servedReply 0) ⟨.cold [], twoHitsServers⟩).1 = .ok rs ∧
    RerankContract twoHitsSetup {twoHitsServers} {twoHitsCall} twoHitsCall rs := by
  have hanswering : ∀ up ∈ ({twoHitsServers} : Set Upstream), Answering twoHitsSetup up := by
    rintro up rfl query hits topK
    refine ⟨_, rfl, fun n => ⟨[], rfl, ?_⟩⟩
    intro e he
    cases he
  have hsha : NoUseCollision twoHitsSetup (RerankUsed twoHitsSetup {twoHitsCall}) := by
    intro u u' hu hu' heq
    have hdigests : (twoHitsDigests.map Prod.snd).Nodup := by decide +kernel
    exact digestTable_inj hdigests (twoHits_texts hu) (twoHits_texts hu') heq
  have hidle : (idle ⟨.cold [], twoHitsServers⟩ : State LlmCalls LlmErr ServedWorld RerankCall
    (List RankedHit)).procs 0 = none := rfl
  obtain ⟨n, hrun⟩ := run_serve (S := rerankService (RerankCall.rerank twoHitsSetup)) twoHitsCall hidle
  have hlabel :
    ∀ l ∈ (.start 0 twoHitsCall :: List.replicate n (.call 0 .ok) : List (Label LlmErr RerankCall ServerEnv)),
      l = .start 0 twoHitsCall ∨ l = .call 0 .ok := by
    intro l hl
    rcases List.mem_cons.mp hl with rfl | hl
    · exact Or.inl rfl
    · exact Or.inr (List.mem_replicate.mp hl).2
  have hproper : twoHitsCall.Proper := ⟨List.cons_ne_nil _ _, by decide +kernel, by decide⟩
  obtain ⟨hends, -⟩ := rerank_contract twoHitsSetup (by decide)
    {twoHitsServers} hanswering {twoHitsCall} hsha [] twoHitsServers rfl
    (.start 0 twoHitsCall :: List.replicate n (.call 0 .ok)) _
    (fun l hl => by rcases hlabel l hl with rfl | rfl; exacts [rfl, trivial])
    (fun l hl => by rcases hlabel l hl with rfl | rfl <;> trivial) hrun
  rcases hends 0 twoHitsCall _ (State.set_procs_self ..) hproper with hok | ⟨⟨l, hl, hraise⟩, -⟩
  · exact hok
  · rcases hlabel l hl with rfl | rfl <;> exact hraise.elim

end LegalRag
