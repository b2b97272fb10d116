import LegalRag.Llm.Embeddings
import LegalRag.Llm.Transparent

/-!
# Embeddings across deployments

The cache key of `embed` is made of the model and the text, while the server also gets the dimensions.  So
all vectors that calls return are the current ones exactly when no two processes embed texts with one key
for different models, dimensions or texts (`embedsCurrent_iff`).
-/

namespace LegalRag

open Calls Prog Service Json

/-- A call of `embed` in the process `host`. -/
structure HostedEmbed where
  host : Nat
  texts : List String
  useCache : Bool

/-- Any number of processes that call `embed` and share a Redis.  Each has the settings with which it was
started: after a restart with other settings the process has another number. -/
def embedService (sha256 : String → String) (deploy : Nat → LlmSettings) (up : Upstream) :
    Service LlmCalls LlmErr LlmWorld HostedEmbed CacheEnv (List Embedding) where
  program r := embed sha256 (deploy r.host) r.texts r.useCache
  enter _ w := w
  handle _ r := llmReply up r.host
  env e w := some (e.step w)

/-- The server gives vectors of the length it is asked for. -/
def Upstream.Sized (up : Upstream) : Prop := ∀ model dim text, (up.vector model dim text).length = dim

/-- In every run in which each process embeds texts of its `T`, every call that returns has the vectors
that the server gives for the settings of its process, and so of the dimension of the settings. -/
def EmbedsCurrent (sha256 : String → String) (deploy : Nat → LlmSettings) (up : Upstream)
    (T : Nat → Set String) : Prop :=
  ∀ ls t, (∀ l ∈ ls, l.Starts fun r => ∀ text ∈ r.texts, text ∈ T r.host) →
    (embedService sha256 deploy up).run (idle (.cold [])) ls = some t →
    ∀ pid req vs, t.procs pid = some ⟨req, .done (.ok vs)⟩ →
      vs = req.texts.map (up.current (deploy req.host)) ∧
        (up.Sized → ∀ v ∈ vs, v.length = (deploy req.host).embeddingDim)

/-- What is hashed for a text. -/
def embedText (s : LlmSettings) (text : String) : String := keyText [.text s.embeddingModel, .text text]

/-- No text that a process can fetch has the key of another text, or of the same text for another model or
dimension. -/
def OneVectorPerKey (deploy : Nat → LlmSettings) (T : Nat → Set String) : Prop :=
  ∀ host host' text text', text ∈ T host → text' ∈ T host' → 0 < (deploy host).embeddingBatchSize →
    embedText (deploy host) text = embedText (deploy host') text' →
      (deploy host).embeddingModel = (deploy host').embeddingModel ∧
        (deploy host).embeddingDim = (deploy host').embeddingDim ∧ text = text'

/-- SHA-256 has no collision among the keys of the texts. -/
def NoEmbedCollision (sha256 : String → String) (deploy : Nat → LlmSettings) (T : Nat → Set String) : Prop :=
  ∀ host host' text text', text ∈ T host → text' ∈ T host' →
    sha256 (embedText (deploy host) text) = sha256 (embedText (deploy host') text') →
      embedText (deploy host) text = embedText (deploy host') text'

variable {sha256 : String → String} {deploy : Nat → LlmSettings} {up : Upstream} {T : Nat → Set String}

/-! ### The cache is right -/

/-- The vector of a text that a process with these settings can fetch. -/
def Fetched (sha256 : String → String) (deploy : Nat → LlmSettings) (up : Upstream) (T : Nat → Set String)
    (key : String) (v : Embedding) : Prop :=
  ∃ host text, text ∈ T host ∧ 0 < (deploy host).embeddingBatchSize ∧
    embedKey sha256 (deploy host).embeddingModel text = key ∧ v = up.current (deploy host) text

/-- All that is cached was fetched for a text with the key. -/
def fetchedKnown (sha256 : String → String) (deploy : Nat → LlmSettings) (up : Upstream)
    (T : Nat → Set String) : Known where
  complete _ _ := True
  embed := Fetched sha256 deploy up T
  redis key c := ∃ v, c = .vector v ∧ Fetched sha256 deploy up T key v
  points _ := True

private theorem Fetched.eq (hsha : NoEmbedCollision sha256 deploy T) (hkey : OneVectorPerKey deploy T)
    {host : Nat} {text : String} (htext : text ∈ T host) {v : Embedding}
    (h : Fetched sha256 deploy up T (embedKey sha256 (deploy host).embeddingModel text) v) :
    v = up.current (deploy host) text := by
  obtain ⟨host', text', htext', hsize, hsame, rfl⟩ := h
  have hhashed := hsha host' host text' text htext' htext (makeKey_text hsame)
  obtain ⟨hmodel, hdim, rfl⟩ := hkey host' host text' text htext' htext hsize hhashed
  unfold Upstream.current
  rw [hmodel, hdim]

private theorem cacheRight_of_oneVectorPerKey (hsha : NoEmbedCollision sha256 deploy T)
    (hkey : OneVectorPerKey deploy T) {host : Nat} {texts : List String}
    (htexts : ∀ text ∈ texts, text ∈ T host) (useCache : Bool) :
    CacheRight sha256 (deploy host) up (fetchedKnown sha256 deploy up T) useCache texts := by
  constructor
  · intro _ text htext
    refine ⟨?_, ?_⟩
    · intro e he
      exact Fetched.eq hsha hkey (htexts text htext) he
    · intro c hc
      obtain ⟨v, rfl, hv⟩ := hc
      obtain rfl := hv.eq hsha hkey (htexts text htext)
      exact ⟨rfl, hv⟩
  · intro _ hsize text htext
    have hfetched : Fetched sha256 deploy up T (embedKey sha256 (deploy host).embeddingModel text)
        (up.current (deploy host) text) := ⟨host, text, htexts text htext, hsize, rfl, rfl⟩
    exact ⟨hfetched, _, rfl, hfetched⟩

private theorem embedsCurrent_of_oneVectorPerKey (hsha : NoEmbedCollision sha256 deploy T)
    (hkey : OneVectorPerKey deploy T) : EmbedsCurrent sha256 deploy up T := by
  intro ls t hls ht pid req vs hproc
  let K := fetchedKnown sha256 deploy up T
  have hrun : t.Accords (MayFail True (Replies K up)) (Writes K)
      (fun req r => ∀ vs, r = .ok vs → vs = req.texts.map (up.current (deploy req.host)))
        (LlmWorld.All K) := by
    refine accords_cold HostedEmbed.host (fun req hreq => ?_) (fun _ => trivial) hls (fun _ _ _ => trivial) ht
    refine accords_of_follows (F := Found K up) ?_
      (embed_follows (cacheRight_of_oneVectorPerKey hsha hkey hreq _))
    intro o a ha
    rcases ha with ha | ⟨-, e, he⟩
    · exact ha
    · cases he
  have hvs : vs = req.texts.map (up.current (deploy req.host)) := hrun.progs pid _ hproc vs rfl
  refine ⟨hvs, fun hsized v hv => ?_⟩
  rw [hvs] at hv
  obtain ⟨text, -, rfl⟩ := List.mem_map.mp hv
  exact hsized _ _ text

/-! ### The cache is wrong -/

section Wrong

variable {s : LlmSettings} {text : String} {host : Nat}

/-- A text that is only in Redis. -/
private theorem lookupVector_exec_redis {key : String} {w : LlmWorld} {v : Embedding}
    (hlru : w.lruEmbed host = .empty 5000) (hredis : w.redis key = some (.vector v)) :
    ((lookupVector key).exec (llmReply up host) w).1 = .ok (some v) := by
  have hmiss : ((w.lruEmbed host).get key).1 = none := by
    rw [hlru]
    rfl
  unfold lookupVector
  rw [perform_bind, exec_call]
  show ((cont _ (Except.ok ((w.lruEmbed host).get key).1)).exec _ _).1 = _
  rw [hmiss, cont_ok, perform_bind, exec_call]
  show ((cont _ (Except.ok (w.redis key))).exec _ _).1 = _
  rw [hredis]
  rfl

/-- The world after a first call, which fetches a text and caches its vector. -/
def afterFetch (sha256 : String → String) (up : Upstream) (s : LlmSettings) (host : Nat)
    (text : String) : LlmWorld :=
  let key := embedKey sha256 s.embeddingModel text
  ⟨fun _ => .empty 2000, Function.update (fun _ => .empty 5000) host
    ((Lru.empty 5000).set key (up.current s text)),
    Function.update (fun _ => none) key (some (.vector (up.current s text))), []⟩

private theorem afterFetch_lru {host' : Nat} (h : host' ≠ host) :
    (afterFetch sha256 up s host text).lruEmbed host' = .empty 5000 := by
  simp [afterFetch, h]

private theorem afterFetch_redis :
    (afterFetch sha256 up s host text).redis
      (embedKey sha256 s.embeddingModel text) = some (.vector (up.current s text)) :=
  Function.update_self (embedKey sha256 s.embeddingModel text) _ fun _ => none

private theorem embed_exec_cold (hsize : 0 < s.embeddingBatchSize)
    (hup : up.embedFailure ⟨s.embeddingModel, [text], s.embeddingDim⟩ = none) :
    ((embed sha256 s [text] true).exec (llmReply up host) (.cold [])).2 =
    afterFetch sha256 up s host text := by
  have hmiss : llmReply up host (.lruEmbedGet (embedKey sha256 s.embeddingModel text)) (.cold []) =
      (.ok none, .cold []) := by
    show (_, LlmWorld.mk _ (Function.update (fun _ => Lru.empty 5000) host (Lru.empty 5000)) _ _) = _
    rw [Function.update_eq_self host fun _ => Lru.empty 5000]
    rfl
  have hlookup : (lookupAll sha256 s true [text]).exec (llmReply up host) (.cold []) =
      (.ok [none], .cold []) := by
    show ((lookupVector (embedKey sha256 s.embeddingModel text) >>= _).exec _ _) = _
    unfold lookupVector
    rw [exec_bind, perform_bind, exec_call, hmiss]
    rfl
  have hfetch : llmReply up host (.embeddings ⟨s.embeddingModel, [(0, text)].map (·.2), s.embeddingDim⟩)
    (.cold []) = (.ok [up.current s text], .cold []) := by
    show (up.embed ⟨s.embeddingModel, [text], s.embeddingDim⟩, _) = _
    unfold Upstream.embed
    rw [hup]
    rfl
  unfold embed
  rw [if_neg (List.cons_ne_nil text []), exec_bind, hlookup]
  have hmisses : missesOf [text] [none] = [(0, text)] := rfl
  simp only [cont_ok, hmisses, if_neg (List.cons_ne_nil (0, text) []), if_neg (Nat.ne_of_gt hsize),
    Redis.slices_singleton hsize, exec_bind]
  unfold fetchBatches
  rw [perform_bind, exec_call]
  rw [hfetch]
  rfl

/-- A call for one text that is found needs no server. -/
private theorem embed_exec_found {w : LlmWorld} {v : Embedding}
    (h : ((lookupVector (embedKey sha256 s.embeddingModel text)).exec (llmReply up host) w).1 =
      .ok (some v)) : ((embed sha256 s [text] true).exec (llmReply up host) w).1 = .ok [v] := by
  have hlookup : ((lookupAll sha256 s true [text]).exec (llmReply up host) w).1 = .ok [some v] := by
    show ((lookupVector (embedKey sha256 s.embeddingModel text) >>= _).exec _ _).1 = _
    rw [exec_bind, h]
    rfl
  unfold embed
  rw [if_neg (List.cons_ne_nil text []), exec_bind, hlookup]
  rfl

private theorem embedText_cancel {text' : String} (h : embedText s text = embedText s text') : text = text' :=
  keyText_pair_cancel h

/-- Two processes embed texts with one key for different models, dimensions or texts: with some server the
second gets the vector of the first. -/
private theorem not_embedsCurrent {host' : Nat} {text' : String} (htext : text ∈ T host)
    (htext' : text' ∈ T host') (hsize : 0 < (deploy host).embeddingBatchSize)
    (hkey : embedText (deploy host) text = embedText (deploy host') text')
    (hdiff : ¬ ((deploy host).embeddingModel = (deploy host').embeddingModel ∧
      (deploy host).embeddingDim = (deploy host').embeddingDim ∧ text = text')) :
    ∃ up, ¬ EmbedsCurrent sha256 deploy up T := by
  have hne : host' ≠ host := by
    rintro rfl
    exact hdiff ⟨rfl, rfl, embedText_cancel hkey⟩
  let up : Upstream :=
    ⟨fun _ => .error ⟨""⟩, fun model dim t => if (deploy host).embeddingModel = model ∧
      (deploy host).embeddingDim = dim ∧ text = t then [1] else [0],
      fun _ => none, fun _ => .ok [], fun _ _ => 0⟩
  have hfirst : up.current (deploy host) text = [1] := if_pos ⟨rfl, rfl, rfl⟩
  have hsecond : up.current (deploy host') text' = [0] := if_neg hdiff
  refine ⟨up, fun h => ?_⟩
  let S := embedService sha256 deploy up
  obtain ⟨ls, t, hstarts, -, hrun, hproc⟩ := run_serve_two (S := S)
    (A := fun r : HostedEmbed => ∀ x ∈ r.texts, x ∈ T r.host) ⟨host, [text], true⟩ ⟨host', [text'], true⟩
    (fun x hx => List.mem_singleton.mp hx ▸ htext) (fun x hx => List.mem_singleton.mp hx ▸ htext') (.cold [])
  have hsame : embedKey sha256 (deploy host).embeddingModel text =
      embedKey sha256 (deploy host').embeddingModel text' := by
    unfold embedKey makeKey
    unfold embedText at hkey
    rw [hkey]
  have hcached : ((S.program ⟨host, [text], true⟩).exec (S.handle 0 ⟨host, [text], true⟩)
    (S.enter 0 (.cold []))).2 = afterFetch sha256 up (deploy host) host text := embed_exec_cold hsize rfl
  have hredis : (afterFetch sha256 up (deploy host) host text).redis
    (embedKey sha256 (deploy host').embeddingModel text') = some (.vector [1]) := by
    rw [← hsame, afterFetch_redis, hfirst]
  have hresult : ((S.program ⟨host', [text'], true⟩).exec (S.handle 1 ⟨host', [text'], true⟩)
      (S.enter 1 (afterFetch sha256 up (deploy host) host text))).1 = .ok [[1]] :=
    embed_exec_found (lookupVector_exec_redis (afterFetch_lru hne) hredis)
  rw [hcached, hresult] at hproc
  have hvs := (h ls t hstarts hrun 1 _ _ hproc).1
  rw [List.map_singleton, hsecond] at hvs
  cases hvs

end Wrong

/-- All returned vectors are the current ones, whatever the server gives, exactly when no text has the key
of another text, or of the same text for another model or dimension. -/
theorem embedsCurrent_iff (sha256 : String → String) (deploy : Nat → LlmSettings) (T : Nat → Set String)
    (hsha : NoEmbedCollision sha256 deploy T) :
    (∀ up, EmbedsCurrent sha256 deploy up T) ↔ OneVectorPerKey deploy T := by
  constructor
  · intro h host host' text text' htext htext' hsize hkey
    by_contra hdiff
    obtain ⟨up, hup⟩ : ∃ up, ¬ EmbedsCurrent sha256 deploy up T :=
      not_embedsCurrent htext htext' hsize hkey hdiff
    exact hup (h up)
  · intro hkey up
    exact embedsCurrent_of_oneVectorPerKey hsha hkey

/-! ### A changed dimension -/

/-- A process of before and one of after a change of `EMBEDDING_DIM` from 768 to 1536. -/
def resized (host : Nat) : LlmSettings :=
  ⟨"gemini-2.5-flash", "gemini-embedding-001", if host = 0 then 768 else 1536, 64, 3600, 604800⟩

/-- A server that gives vectors of the asked length. -/
def zeros : Upstream where
  create _ := .error ⟨"Error code: 404"⟩
  vector _ dim _ := List.replicate dim 0
  embedFailure _ := none
  rerank _ := .error ⟨"status_code: 401"⟩
  similarity _ _ := 0

/-- After the change the text has a vector of the old length. -/
theorem not_always_current :
    ¬ ∃ sha256 : String → String, EmbedsCurrent sha256 resized zeros fun _ => {"hợp đồng"} := by
  intro ⟨sha256, h⟩
  let S := embedService sha256 resized zeros
  obtain ⟨ls, t, hstarts, -, hrun, hproc⟩ := run_serve_two (S := S)
    (A := fun r : HostedEmbed => ∀ x ∈ r.texts, x ∈ ({"hợp đồng"} : Set String))
    ⟨0, ["hợp đồng"], true⟩ ⟨1, ["hợp đồng"], true⟩
    (fun x hx => List.mem_singleton.mp hx) (fun x hx => List.mem_singleton.mp hx) (.cold [])
  have hcached : ((S.program ⟨0, ["hợp đồng"], true⟩).exec (S.handle 0 ⟨0, ["hợp đồng"], true⟩)
    (S.enter 0 (.cold []))).2 =
      afterFetch sha256 zeros (resized 0) 0 "hợp đồng" := embed_exec_cold (by decide) rfl
  have hresult : ((S.program ⟨1, ["hợp đồng"], true⟩).exec (S.handle 1 ⟨1, ["hợp đồng"], true⟩)
      (S.enter 1 (afterFetch sha256 zeros (resized 0) 0 "hợp đồng"))).1 = .ok [List.replicate 768 0] :=
    embed_exec_found (lookupVector_exec_redis (afterFetch_lru (by decide))
      (afterFetch_redis (s := resized 0)))
  rw [hcached, hresult] at hproc
  have hlength := (h ls t hstarts hrun 1 _ _ hproc).2 (fun _ dim _ => List.length_replicate) _
    (List.mem_singleton_self _)
  rw [List.length_replicate] at hlength
  exact absurd hlength (by decide)

/-- The digests of the keys of two texts. -/
def textDigests : String → String :=
  digestTable [("gemini-embedding-001|hợp đồng|",
    "2525bd15cb8b6ba0e7b0b7def58c75191378329fc2a0ca2532cab4a7cfd8c3dd"),
    ("gemini-embedding-001|thử việc|", "b1a18abb3563dae3b7743083d1539166a9dad38f5ba2a6335ce10c8ed5e0d90e")]

/-- What a process embeds of before and of after the change. -/
def ownText (host : Nat) : String := if host = 0 then "hợp đồng" else "thử việc"

theorem embedsCurrent_otherTexts :
    (∀ up, EmbedsCurrent textDigests resized up fun host => {ownText host}) ∧
      embedText (resized 0) (ownText 0) ≠ embedText (resized 1) (ownText 1) := by
  have hdigests : textDigests (keyText [.text "gemini-embedding-001", .text "hợp đồng"]) ≠
      textDigests (keyText [.text "gemini-embedding-001", .text "thử việc"]) := by decide +kernel
  -- equal digests are of one text, and so of processes on the same side of the change
  have hside : ∀ host host', textDigests (embedText (resized host) (ownText host)) =
      textDigests (embedText (resized host') (ownText host')) → ownText host = ownText host' ∧
        (resized host).embeddingDim = (resized host').embeddingDim := by
    intro host host' h
    unfold embedText resized ownText at *
    by_cases h0 : host = 0 <;> by_cases h0' : host' = 0 <;> simp only [h0, h0', if_true, if_false] at h ⊢
    · exact ⟨trivial, trivial⟩
    · exact absurd h hdigests
    · exact absurd h.symm hdigests
    · exact ⟨trivial, trivial⟩
  refine ⟨(embedsCurrent_iff textDigests resized _ ?_).mpr ?_, ?_⟩
  · intro host host' _ _ rfl rfl h
    obtain ⟨htext, -⟩ := hside host host' h
    show keyText [.text "gemini-embedding-001", .text (ownText host)] =
      keyText [.text "gemini-embedding-001", .text (ownText host')]
    rw [htext]
  · intro host host' _ _ rfl rfl _ h
    obtain ⟨htext, hdim⟩ := hside host host' (congrArg textDigests h)
    exact ⟨rfl, hdim, htext⟩
  · intro h
    exact hdigests (congrArg textDigests h)

end LegalRag
