import LegalRag.Retrieval.Contract

/-!
# When the rerank cache is transparent

The key of the scores is made of the model, the question and the ids of the hits, while the prompt also
has the texts of the hits and `top_k`; and scores that are not finite cannot be read back.  So the cache
returns the right result to all calls, whatever finite scores the model gives, exactly when no two calls
with one key have different prompts, and it never does where a score is not finite
(`rerank_cache_transparent_iff`).
-/

namespace LegalRag

open Calls Prog Service Json

/-! ### A call alone -/

section Alone

variable {x : RetrievalSetup} {up : Upstream} {host : Nat} {query : String} {hits : List SearchHit}
  {topK : Int} {useCache : Bool} {w : LlmWorld}

/-- The key of the scores of the model. -/
def llmRerankKey (x : RetrievalSetup) (query : String) (hits : List SearchHit) : String :=
  makeKey x.sha256 "rerank" (rerankParts x.llm.llmModelDefault query hits)

/-- The world after scores have been written. -/
def keepScores (key : String) (useCache : Bool) (scores : Except LlmErr Scores) (w : LlmWorld) : LlmWorld :=
  match scores with
  | .ok ss =>
    if useCache ∧ ss ≠ [] then { w with redis := Function.update w.redis key (some (scoresValue ss)) }
      else w
  | .error _ => w

section Through

variable {key : String} {fetch : Llm Scores}

/-- Scores that are not found are fetched. -/
theorem rerankThrough_miss (h2 : 2 ≤ hits.length) (hmiss : useCache → w.redis key = none) :
    (rerankThrough key fetch hits topK useCache).exec (llmReply up host) w =
      (rankBy hits topK (fetch.exec (llmReply up host) w).1,
        keepScores key useCache (fetch.exec (llmReply up host) w).1 (fetch.exec (llmReply up host) w).2) := by
  have hfetch : ((fetch >>= fun ss => do
      if useCache ∧ ss ≠ [] then llm (.cacheSet key (scoresValue ss) 600)
      return materializeFloats hits (scoreAt ss) topK : Llm (List RankedHit))).exec (llmReply up host) w =
      (rankBy hits topK (fetch.exec (llmReply up host) w).1,
        keepScores key useCache (fetch.exec (llmReply up host) w).1 (fetch.exec (llmReply up host) w).2) := by
    rw [exec_bind, rankBy_of_two h2]
    cases (fetch.exec (llmReply up host) w).1 with
    | error e => rfl
    | ok ss =>
      rw [cont_ok]
      by_cases hkeep : useCache = true ∧ ss ≠ []
      · have hworld : keepScores key useCache (.ok ss) (fetch.exec (llmReply up host) w).2 =
          { (fetch.exec (llmReply up host) w).2 with
            redis := Function.update (fetch.exec (llmReply up host) w).2.redis key
              (some (scoresValue ss)) } := if_pos hkeep
        rw [if_pos hkeep, hworld]
        rfl
      · have hworld : keepScores key useCache (.ok ss) (fetch.exec (llmReply up host) w).2 =
          (fetch.exec (llmReply up host) w).2 :=
          if_neg hkeep
        rw [if_neg hkeep, hworld]
        rfl
  match hits with
  | [] => simp at h2
  | [_] => simp at h2
  | a :: b :: rest =>
    cases useCache with
    | false => exact hfetch
    | true =>
      have hlookup : (lookupScores key).exec (llmReply up host) w = (.ok none, w) := by
        unfold lookupScores
        rw [perform_bind, exec_call]
        show ((cont _ (Except.ok (w.redis key))).exec _ w) = _
        rw [hmiss rfl]
        rfl
      show (lookupScores key >>= _).exec _ w = _
      rw [exec_bind, hlookup]
      exact hfetch

/-- Scores that are not finite are kept as `null`, which cannot be read as a score. -/
private theorem toScores_error {ss : Scores} (h : ¬ ss.Finite) :
    ∃ e, (scoresValue ss).toScores = .error e := by
  show ∃ e, readScores (ss.map fun e => (e.1, e.2.json)) = .error e
  induction ss with
  | nil => exact absurd (fun e he => absurd he List.not_mem_nil) h
  | cons e ss ih =>
    obtain ⟨i, score⟩ := e
    cases score with
    | infinite negative => exact ⟨_, rfl⟩
    | nan => exact ⟨_, rfl⟩
    | finite q =>
      have hrest : ¬ Scores.Finite ss := by
        intro hfinite
        refine h fun e he => ?_
        rcases List.mem_cons.mp he with rfl | hmem
        · exact ⟨q, rfl⟩
        · exact hfinite e hmem
      obtain ⟨err, herr⟩ := ih hrest
      refine ⟨err, ?_⟩
      show (readScores (ss.map fun e => (e.1, e.2.json)) >>= fun es =>
        pure ((i, PyFloat.finite q) :: es)) = _
      rw [herr]
      rfl

/-- Scores that are found are read. -/
private theorem rerankThrough_hit (h2 : 2 ≤ hits.length) {ss : Scores} (hss : ss ≠ [])
    (hfound : w.redis key = some (scoresValue ss)) :
    ((rerankThrough key fetch hits topK true).exec (llmReply up host) w).1 =
    rankBy hits topK (scoresValue ss).toScores := by
  have hlookup : ((lookupScores key).exec (llmReply up host) w).1 = (scoresValue ss).toScores.map some := by
    unfold lookupScores
    rw [perform_bind, exec_call]
    show ((cont _ (Except.ok (w.redis key))).exec _ w).1 = _
    rw [hfound]
    show (((.done (scoresValue ss).toScores : Llm Scores) >>= fun ss =>
      pure (if ss = [] then none else some ss)).exec
      (llmReply up host) w).1 = _
    by_cases hfinite : ss.Finite
    · rw [toScores_scoresValue hfinite, done_bind, cont_ok, if_neg hss]
      rfl
    · obtain ⟨e, he⟩ := toScores_error hfinite
      rw [he]
      rfl
  match hits with
  | [] => simp at h2
  | [_] => simp at h2
  | a :: b :: rest =>
    unfold rerankThrough
    simp only [if_true]
    rw [exec_bind, hlookup]
    cases (scoresValue ss).toScores with
    | error e => rfl
    | ok ss' => rfl

end Through

theorem llmScores_exec :
    (llmScores x query hits topK).exec (llmReply up host) w =
      (((complete x.sha256 x.llm (rerankCall x query hits topK)).exec (llmReply up host) w).1 >>=
        scoresOf x hits.length,
        ((complete x.sha256 x.llm (rerankCall x query hits topK)).exec (llmReply up host) w).2) := by
  unfold llmScores
  rw [exec_bind]
  cases ((complete x.sha256 x.llm (rerankCall x query hits topK)).exec (llmReply up host) w).1 with
  | error e => rfl
  | ok resp => rfl

theorem complete_cold {c : CompleteCall} (hc : c.cacheable) :
    ((complete x.sha256 x.llm c).exec (llmReply up host) (.cold [])).1 = up.create c.request := by
  cases hanswer : up.create c.request with
  | ok v => rw [complete_exec_cold hc hanswer]
  | error e =>
    unfold complete
    rw [if_pos hc, perform_bind, exec_call]
    show ((completeUpstream x.llm (some (c.cacheKey x.sha256)) c).exec _ _).1 = _
    unfold completeUpstream
    rw [perform_bind, exec_call]
    show ((cont _ (up.create c.request)).exec _ _).1 = _
    rw [hanswer]
    rfl

private theorem llmScores_cold :
    ((llmScores x query hits topK).exec (llmReply up host) (.cold [])).1 =
      Backend.llm.scores x up query hits topK := by
  have hcold : ((complete x.sha256 x.llm (rerankCall x query hits topK)).exec (llmReply up host)
    (.cold [])).1 = up.create (rerankCall x query hits topK).request := complete_cold rfl
  rw [llmScores_exec]
  show ((complete x.sha256 x.llm (rerankCall x query hits topK)).exec _ _).1 >>= _ = _
  rw [hcold]
  rfl

/-- Without caches the result is made of the scores that the model gives. -/
private theorem llmRerank_cold :
    ((llmRerank x query hits topK useCache).exec (llmReply up host) (.cold [])).1 =
    Backend.llm.alone x up query hits topK := by
  unfold llmRerank Backend.alone
  by_cases h2 : 2 ≤ hits.length
  · rw [rerankThrough_miss h2 fun _ => rfl]
    show rankBy hits topK ((llmScores x query hits topK).exec _ _).1 = _
    rw [llmScores_cold]
  · match hits with
    | [] => rfl
    | [_] => rfl
    | _ :: _ :: _ => exact absurd (by simp) h2

end Alone

/-! ### Many calls -/

/-- Any number of processes that rerank with the model and share a Redis. -/
def llmRerankService (x : RetrievalSetup) (up : Upstream) :
    Service LlmCalls LlmErr LlmWorld RerankCall CacheEnv (List RankedHit) where
  program c := llmRerank x c.query c.hits c.topK c.useCache
  enter _ w := w
  handle _ c := llmReply up c.host
  env e w := some (e.step w)

/-- In every run of calls of `A` from cold caches, every call ends as it does when nothing is cached or,
where calls have failed on the way, with an exception. -/
def RerankTransparent (x : RetrievalSetup) (up : Upstream) (A : Set RerankCall) : Prop :=
  ∀ ls t, (∀ l ∈ ls, l.Starts (· ∈ A)) → (llmRerankService x up).run (idle (.cold [])) ls = some t →
    ∀ pid c r, t.procs pid = some ⟨c, .done r⟩ →
      r = ((llmRerank x c.query c.hits c.topK c.useCache).exec (llmReply up c.host) (.cold [])).1 ∨
        (∃ l ∈ ls, l.Raises) ∧ ∃ e, r = .error e

/-- The call uses the rerank cache. -/
structure RerankCall.Caches (c : RerankCall) : Prop where
  hits : 2 ≤ c.hits.length
  useCache : c.useCache

/-- The calls have one key. -/
structure SameRerankKey (c d : RerankCall) : Prop where
  query : c.query = d.query
  ids : c.hits.map SearchHit.pointId = d.hits.map SearchHit.pointId

section Setup

variable (x : RetrievalSetup) (up : Upstream) (A : Set RerankCall)

/-- What the call asks the model. -/
def RerankCall.request (c : RerankCall) : CompletionRequest :=
  (rerankCall x c.query c.hits c.topK).request

/-- The scores that the model gives are finite. -/
def FiniteScores : Prop :=
  ∀ c ∈ A, c.Caches → ∀ ss, Backend.llm.scores x up c.query c.hits c.topK = .ok ss → ss.Finite

/-- Calls with one key ask the same. -/
def KeysDetermine : Prop :=
  ∀ c ∈ A, ∀ d ∈ A, c.Caches → d.Caches → SameRerankKey c d → c.request x = d.request x

/-- The uses of the caches. -/
inductive LlmRerankUsed : CacheUse → Prop where
  | completion {c : RerankCall} (hA : c ∈ A) :
      LlmRerankUsed (.completion (rerankCall x c.query c.hits c.topK))
  | scores {c : RerankCall} (hA : c ∈ A) (hc : c.Caches) : LlmRerankUsed (.rerank .llm c.query c.hits c.topK)

end Setup

section Transparent

variable {x : RetrievalSetup} {up : Upstream} {A : Set RerankCall}

private theorem SameRerankKey.key {c d : RerankCall} (h : SameRerankKey c d) :
    llmRerankKey x c.query c.hits = llmRerankKey x d.query d.hits := by
  have hids : (c.hits.map fun a => Value.str a.pointId) = d.hits.map fun a => Value.str a.pointId := by
    have hstrings := congrArg (List.map Value.str) h.ids
    rwa [List.map_map, List.map_map] at hstrings
  unfold llmRerankKey rerankParts
  rw [h.query, hids]

private theorem llmRerank_coherent (hsha : NoUseCollision x (LlmRerankUsed x A)) (hkeys : KeysDetermine x A) :
    Coherent x up (LlmRerankUsed x A) := by
  intro u u' hu hu' hkey
  obtain ⟨hns, htext⟩ := hsha.same hu hu' hkey
  refine ⟨hns, ?_⟩
  cases hu with
  | @completion c hA =>
    cases hu' with
    | @completion d hA' =>
      have hrequest : c.request x = d.request x :=
        (request_eq_iff (sameKeyInputs_of_keyText htext) rfl rfl).mpr ⟨rfl, rfl⟩
      show (up.create (c.request x)).map CachedValue.completion =
        (up.create (d.request x)).map CachedValue.completion
      rw [hrequest]
    | scores hA' hd => simp [CacheUse.ns] at hns
  | @scores c hA hc =>
    cases hu' with
    | completion hA' => simp [CacheUse.ns] at hns
    | @scores d hA' hd =>
      obtain ⟨hquery, hstrings⟩ := keyText_triple_cancel htext
      have hids : c.hits.map SearchHit.pointId = d.hits.map SearchHit.pointId := by
        have hmapped : (c.hits.map SearchHit.pointId).map Value.str =
            (d.hits.map SearchHit.pointId).map Value.str := by
          rw [List.map_map, List.map_map]
          exact Value.arr.inj hstrings
        exact List.map_injective_iff.mpr (fun _ _ => Value.str.inj) hmapped
      have hlength : c.hits.length = d.hits.length := by
        have hl := congrArg List.length hids
        rwa [List.length_map, List.length_map] at hl
      have hrequest : c.request x = d.request x := hkeys c hA d hA' hc hd ⟨hquery, hids⟩
      show (up.create (c.request x) >>= scoresOf x c.hits.length).map scoresValue =
        (up.create (d.request x) >>= scoresOf x d.hits.length).map scoresValue
      rw [hrequest, hlength]

/-- The cache is right. -/
private theorem rerank_transparent (hsha : NoUseCollision x (LlmRerankUsed x A)) (hkeys : KeysDetermine x A)
    (hfinite : FiniteScores x up A) : RerankTransparent x up A := by
  intro ls t hstarts hrun pid c r hproc
  have hU : Coherent x up (LlmRerankUsed x A) := llmRerank_coherent hsha hkeys
  let K := keptKnown x up (LlmRerankUsed x A) fun _ => True
  have haccords : t.Accords (MayFail (∃ l ∈ ls, l.Raises) (Replies K up)) (Writes K)
      (fun c => OrFails (∃ l ∈ ls, l.Raises) fun r => r = Backend.llm.alone x up c.query c.hits c.topK)
        (LlmWorld.All K) := by
    refine accords_cold RerankCall.host (fun c hc => ?_) (fun _ => trivial) hstarts ?_ hrun
    · refine Backend.run_computes (b := .llm) hU (fun h2 huse ss hss => hfinite c hc ⟨h2, huse⟩ ss hss)
        fun h2 => ?_
      exact ⟨fun huse => .scores hc ⟨h2, huse⟩, fun _ => .completion hc⟩
    · exact fun l hl hraise => ⟨l, hl, hraise⟩
  rw [llmRerank_cold]
  exact haccords.progs pid _ hproc

/-- After one call, another one with its key gets the scores that are kept. -/
private theorem RerankTransparent.reads (h : RerankTransparent x up A) {c d : RerankCall} (hcA : c ∈ A)
    (hdA : d ∈ A) (hc : c.Caches) (hd : d.Caches) (hsame : SameRerankKey c d) {ss : Scores}
    (hne : ss ≠ []) (hss : Backend.llm.scores x up c.query c.hits c.topK = .ok ss) :
    rankBy d.hits d.topK (scoresValue ss).toScores = Backend.llm.alone x up d.query d.hits d.topK := by
  let S := llmRerankService x up
  obtain ⟨ls, t, hstarts, hcalm, hrun, hproc⟩ :=
    run_serve_two (S := S) (A := (· ∈ A)) c d hcA hdA (.cold [])
  let w := ((S.program c).exec (S.handle 0 c) (S.enter 0 (.cold []))).2
  have hkept : w.redis (llmRerankKey x d.query d.hits) = some (scoresValue ss) := by
    have hworld : w = keepScores (llmRerankKey x c.query c.hits) c.useCache (.ok ss)
        ((llmScores x c.query c.hits c.topK).exec (llmReply up c.host) (.cold [])).2 := by
      rw [← hss, ← llmScores_cold]
      exact congrArg Prod.snd (rerankThrough_miss hc.hits fun _ => rfl)
    rw [hworld, ← hsame.key]
    unfold keepScores
    simp only [if_pos (And.intro hc.useCache hne)]
    exact Function.update_self ..
  have hread : ((S.program d).exec (S.handle 1 d) (S.enter 1 w)).1 =
      rankBy d.hits d.topK (scoresValue ss).toScores := by
    show ((llmRerank x d.query d.hits d.topK d.useCache).exec (llmReply up d.host) w).1 = _
    rw [hd.useCache]
    exact rerankThrough_hit hd.hits hne hkept
  rcases h ls t hstarts hrun 1 d _ hproc with heq | ⟨⟨l, hl, hraise⟩, -⟩
  · rw [← hread]
    exact heq.trans llmRerank_cold
  · exact absurd hraise (hcalm l hl)

/-- A score that is not finite makes the second of two calls raise. -/
private theorem not_transparent_of_infinite (h : ¬ FiniteScores x up A) : ¬ RerankTransparent x up A := by
  intro htransparent
  refine h fun c hA hc ss hss => ?_
  by_contra hinfinite
  have hne : ss ≠ [] := by
    rintro rfl
    exact hinfinite fun e he => absurd he List.not_mem_nil
  have hreads := htransparent.reads hA hA hc hc ⟨rfl, rfl⟩ hne hss
  obtain ⟨e, he⟩ := toScores_error hinfinite
  unfold Backend.alone at hreads
  rw [he, hss, rankBy_of_two hc.hits, rankBy_of_two hc.hits] at hreads
  cases hreads

/-- A reply that scores the first candidate. -/
def oneScore : String := "\x7b\"ranked\": [\x7b\"id\": 0, \"score\": 1.0\x7d]\x7d"

/-- The entry of a reply for a candidate. -/
def scoreEntry (i : Int) (score : PyFloat) : PyValue := .dict [("id", .int i), ("score", .float score)]

/-- What `json.loads` makes of it. -/
def oneScoreValue : PyValue := .dict [("ranked", .list [scoreEntry 0 (.finite 1)])]

private theorem scoresOf_oneScore (hreads : x.parse.loads oneScore = .ok oneScoreValue) {n : Nat}
    (hn : 0 < n) : scoresOf x n ⟨[some oneScore], .null⟩ = .ok [(0, .finite 1)] := by
  have hentries : entriesIn x oneScore = .ok [scoreEntry 0 (.finite 1)] := by
    unfold entriesIn
    rw [hreads]
    rfl
  have hadd : addScore n [] 0 (.finite 1) = [(0, .finite 1)] := by
    unfold addScore
    rw [if_pos ⟨le_refl 0, by omega⟩]
    rfl
  show (ofPy (entriesIn x oneScore) >>= fun entries => ofPy (scoresIn x n [] entries)) = _
  rw [hentries]
  show ofPy (scoresIn x n (addScore n [] 0 (.finite 1)) []) = _
  rw [hadd]
  rfl

/-- Two calls with one key that ask differently: some server gives them different answers. -/
private theorem not_transparent_of_requests (hreads : x.parse.loads oneScore = .ok oneScoreValue)
    {c d : RerankCall} (hcA : c ∈ A) (hdA : d ∈ A) (hc : c.Caches) (hd : d.Caches)
    (hsame : SameRerankKey c d) (hne : c.request x ≠ d.request x) :
    ∃ up, FiniteScores x up A ∧ ¬ RerankTransparent x up A := by
  classical
  let up : Upstream :=
    ⟨fun r => if r = c.request x then .ok ⟨[some oneScore], .null⟩ else .error ⟨"overloaded"⟩,
      fun _ _ _ => [], fun _ => none, fun _ => .ok [], fun _ _ => 0⟩
  have hscores : ∀ e : RerankCall, e.Caches → Backend.llm.scores x up e.query e.hits e.topK =
      if e.request x = c.request x then .ok [(0, .finite 1)] else .error ⟨"overloaded"⟩ := by
    intro e he
    have hanswer : up.create (e.request x) =
        if e.request x = c.request x then .ok ⟨[some oneScore], .null⟩ else .error ⟨"overloaded"⟩ :=
      rfl
    show (up.create (e.request x) >>= scoresOf x e.hits.length) = _
    rw [hanswer]
    by_cases heq : e.request x = c.request x
    · have hpos := he.hits
      rw [if_pos heq, if_pos heq]
      exact scoresOf_oneScore hreads (by omega)
    · rw [if_neg heq, if_neg heq]
      rfl
  refine ⟨up, ?_, ?_⟩
  · intro e _ he ss hss entry hentry
    rw [hscores e he] at hss
    by_cases heq : e.request x = c.request x
    · rw [if_pos heq] at hss
      obtain rfl := Except.ok.inj hss
      obtain rfl := List.mem_singleton.mp hentry
      exact ⟨1, rfl⟩
    · rw [if_neg heq] at hss
      cases hss
  · intro htransparent
    have hread := htransparent.reads hcA hdA hc hd hsame (List.cons_ne_nil _ _)
      ((hscores c hc).trans (if_pos rfl))
    unfold Backend.alone at hread
    rw [hscores d hd, if_neg fun heq => hne heq.symm, rankBy_of_two hd.hits, rankBy_of_two hd.hits] at hread
    cases hread

end Transparent

/-- The cache is transparent, whatever finite scores the model gives, exactly when no two calls with one
key ask the model differently; and it is not where a score is not finite. -/
theorem rerank_cache_transparent_iff (x : RetrievalSetup)
    (hreads : x.parse.loads oneScore = .ok oneScoreValue) (A : Set RerankCall)
    (hsha : NoUseCollision x (LlmRerankUsed x A)) :
    ((∀ up, FiniteScores x up A → RerankTransparent x up A) ↔ KeysDetermine x A) ∧
      ∀ up, RerankTransparent x up A → FiniteScores x up A := by
  refine ⟨⟨?_, ?_⟩, ?_⟩
  · intro h c hcA d hdA hc hd hsame
    by_contra hne
    obtain ⟨up, hfinite, hnot⟩ := not_transparent_of_requests hreads hcA hdA hc hd hsame hne
    exact hnot (h up hfinite)
  · intro hkeys up hfinite
    exact rerank_transparent hsha hkeys hfinite
  · intro up h
    by_contra hinfinite
    exact not_transparent_of_infinite hinfinite h

/-! ### One question with two values of `top_k` -/

/-- The first candidates of two hits. -/
def topCall (topK : Int) : RerankCall := ⟨0, "thử việc", twoHits, topK, true⟩

def topCallText (topK : Int) : String :=
  keyText (jsonCall llmDefaults rerankSystem
    ("CÂU HỎI: " ++ "thử việc" ++ "\n\nDANH SÁCH ĐOẠN:\n" ++ candidatesText twoHits ++
      "\n\nTrả JSON như đã hướng dẫn, chỉ giữ top " ++ toString topK ++ ".")
    rerankTokens).keyParts

def topDigests : List (String × String) :=
  [(topCallText 1, "9518e9425f0f4284695c5b100c8279a5691abedc18793692be49e1922d0911e6"),
    (topCallText 2, "8d71baec61b1658fb33ed4bd67761d4604b1d13d475e4ed2e8f596ed667dced4"),
    ("gemini-2.5-flash|thử việc|[\"p\",\"q\"]|",
      "13de1057fe1124916cb7affbe7c1b9cd7d34e2f6a7cdf9f0df3a78b9f7b0e100")]

/-- A reply for each of the calls, and one with a score that is not a number. -/
def topReply : String := "\x7b\"ranked\": [\x7b\"id\": 1, \"score\": 0.9\x7d]\x7d"

def bothReply : String :=
  "\x7b\"ranked\": [\x7b\"id\": 1, \"score\": 0.9\x7d, \x7b\"id\": 0, \"score\": 0.2\x7d]\x7d"

def nanReply : String := "\x7b\"ranked\": [\x7b\"id\": 0, \"score\": NaN\x7d]\x7d"

/-- The replies, as `json.loads` reads them. -/
def topTexts : List (String × PyValue) :=
  [(oneScore, oneScoreValue), (topReply, .dict [("ranked", .list [scoreEntry 1 (.finite (9 / 10))])]),
    (bothReply, .dict [("ranked", .list [scoreEntry 1 (.finite (9 / 10)), scoreEntry 0 (.finite (1 / 5))])]),
    (nanReply, .dict [("ranked", .list [scoreEntry 0 .nan])])]

def topSetup : RetrievalSetup where
  sha256 := digestTable topDigests
  llm := llmDefaults
  rerank := ⟨"llm", none, "rerank-v3.5", 100⟩
  parse := {
    loads := fun raw =>
      match topTexts.find? fun t => t.1 = raw with
      | some t => .ok t.2
      | none => .error ⟨.jsonDecodeError, "Expecting value: line 1 column 1 (char 0)"⟩
    int := fun _ => none
    float := fun _ => none }

/-- The text of the user in a request. -/
def CompletionRequest.userText (r : CompletionRequest) : String :=
  match r.messages with
  | [_, .obj ((_, .str s) :: _)] => s
  | _ => ""

/-- The model scores as many candidates as it is asked for. -/
def topServers : Upstream where
  create r :=
  .ok ⟨[some (if "top 1.".toList.isSuffixOf r.userText.toList then topReply else bothReply)], .null⟩
  vector _ _ _ := []
  embedFailure _ := none
  rerank _ := .ok []
  similarity _ _ := 0

/-- The model gives a score that is not a number. -/
def nanServers : Upstream := { topServers with create := fun _ => .ok ⟨[some nanReply], .null⟩ }

/-- The second call gets the scores of the first; and after a score that is not a number, the call cannot
be repeated. -/
theorem rerank_cache_not_transparent :
    ¬ RerankTransparent topSetup topServers {topCall 1, topCall 2} ∧
    ¬ RerankTransparent topSetup nanServers {topCall 1} := by
  have hcaches : ∀ topK, (topCall topK).Caches := fun topK => ⟨le_refl 2, rfl⟩
  constructor
  · intro h
    have hscores : Backend.llm.scores topSetup topServers "thử việc" twoHits 1 =
        .ok [(1, .finite (9 / 10))] := by
      decide +kernel
    have hread := h.reads (c := topCall 1) (d := topCall 2) (Set.mem_insert _ _)
      (Set.mem_insert_of_mem _ rfl) (hcaches 1) (hcaches 2) ⟨rfl, rfl⟩ (List.cons_ne_nil _ _) hscores
    have hdiffer : rankBy twoHits 2 (scoresValue [(1, .finite (9 / 10))]).toScores ≠
        Backend.llm.alone topSetup topServers "thử việc" twoHits 2 := by
      decide +kernel
    exact hdiffer hread
  · refine not_transparent_of_infinite fun h => ?_
    have hscores : Backend.llm.scores topSetup nanServers "thử việc" twoHits 1 = .ok [(0, .nan)] := by
      decide +kernel
    obtain ⟨q, hq⟩ := h (topCall 1) rfl (hcaches 1) _ hscores (0, .nan) (List.mem_cons_self ..)
    cases hq

private theorem top_texts {u : CacheUse} (hu : LlmRerankUsed topSetup {topCall 1, topCall 2} u) :
    keyText (u.parts topSetup) ∈ topDigests.map Prod.fst := by
  have htexts : ∀ {c}, c ∈ ({topCall 1, topCall 2} : Set RerankCall) → c = topCall 1 ∨ c = topCall 2 :=
    fun hc => hc
  cases hu with
  | completion hA =>
    rcases htexts hA with rfl | rfl
    · exact List.mem_map.mpr ⟨_, List.mem_cons_self .., rfl⟩
    · exact List.mem_map.mpr ⟨_, List.mem_cons_of_mem _ (List.mem_cons_self ..), rfl⟩
  | scores hA hc =>
    rcases htexts hA with rfl | rfl
    all_goals exact List.mem_map.mpr ⟨topDigests[2], List.getElem_mem _, by decide +kernel⟩

/-- For these calls the cache is not transparent with every server. -/
theorem rerank_cache_transparent_iff_top :
    ¬ ∀ up, FiniteScores topSetup up {topCall 1, topCall 2} →
      RerankTransparent topSetup up {topCall 1, topCall 2} := by
  have hsha : NoUseCollision topSetup (LlmRerankUsed topSetup {topCall 1, topCall 2}) := by
    intro u u' hu hu' heq
    have hdigests : (topDigests.map Prod.snd).Nodup := by decide +kernel
    exact digestTable_inj hdigests (top_texts hu) (top_texts hu') heq
  intro h
  have hkeys := (rerank_cache_transparent_iff topSetup rfl {topCall 1, topCall 2} hsha).1.mp h (topCall 1)
    (Set.mem_insert _ _)
    (topCall 2) (Set.mem_insert_of_mem _ rfl) ⟨le_refl 2, rfl⟩ ⟨le_refl 2, rfl⟩ ⟨rfl, rfl⟩
  have hdiffer : ((topCall 1).request topSetup).userText ≠ ((topCall 2).request topSetup).userText :=
    by decide +kernel
  exact hdiffer (congrArg CompletionRequest.userText hkeys)

end LegalRag
