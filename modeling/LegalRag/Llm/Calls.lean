import LegalRag.Api.Calls
import LegalRag.Cache.Keys
import LegalRag.Cache.Lru
import LegalRag.Calls.Program
import LegalRag.Lists.Ranked
import LegalRag.Retrieval.Search

/-!
# What the LLM clients and the retrieval call

The calls of `src/llm/client.py` and `src/retrieval/` outside the event loop's own state: the two
process-local caches, Redis, the model server, Qdrant and Cohere.  Redis keeps the JSON of a value, which
reads back as the same value (`CachedValue`).  The servers answer each request in the same way every time
(`Upstream`); Qdrant finds the best of the points that pass the filter.
-/

namespace LegalRag

open Calls Json

/-- The keyword arguments of `chat.completions.create`. -/
structure CompletionRequest where
  model : String
  messages : List Value
  temperature : Number
  maxTokens : Option Number
  responseFormat : Option (List (String × Value))
  tools : Option (List Value)
  toolChoice : Option Value
  extra : List (String × Value)

/-- The keyword arguments of `embeddings.create`. -/
structure EmbeddingRequest where
  model : String
  input : List String
  dimensions : Nat
  deriving DecidableEq, Repr

/-- The arguments of Cohere's `rerank`. -/
structure RerankRequest where
  model : String
  query : String
  documents : List String
  topN : Nat
  deriving DecidableEq, Repr

/-- A completion: the contents of the messages of its choices, and the rest of its dump. -/
structure ChatCompletion where
  choices : List (Option String)
  rest : Value

/-- What Redis keeps: the dump of a completion, a vector, the queries of a rewrite, or the scores of a
rerank, in which `null` stands for a score that is not finite. -/
inductive CachedValue where
  | completion (c : ChatCompletion)
  | vector (v : Embedding)
  | queries (qs : List String)
  | scores (ss : List (Nat × Option ℚ))

/-- An exception with its text. -/
structure LlmErr where
  text : String
  deriving DecidableEq, Repr

inductive LlmOp where
  /-- `_lru_complete.get` and `_lru_complete.set`. -/
  | lruGet (key : String)
  | lruSet (key : String) (v : ChatCompletion)
  /-- `_lru_embed.get` and `_lru_embed.set`. -/
  | lruEmbedGet (key : String)
  | lruEmbedSet (key : String) (v : Embedding)
  | cacheGet (key : String)
  | cacheSet (key : String) (v : CachedValue) (ttlS : Nat)
  /-- `chat.completions.create`, with its retries. -/
  | create (r : CompletionRequest)
  /-- `embeddings.create`, with its retries. -/
  | embeddings (r : EmbeddingRequest)
  /-- `qc.search` on the collection of the documents. -/
  | search (vector : Embedding) (must : List FieldCondition) (limit : Nat)
  /-- `co.rerank`. -/
  | cohereRerank (r : RerankRequest)

@[reducible] def LlmOp.Resp : LlmOp → Type
  | .lruGet _ => Option ChatCompletion
  | .lruEmbedGet _ => Option Embedding
  | .cacheGet _ => Option CachedValue
  | .create _ => ChatCompletion
  | .embeddings _ => List Embedding
  | .search .. => List (Point × ℚ)
  | .cohereRerank _ => List (Int × ℚ)
  | .lruSet .. | .lruEmbedSet .. | .cacheSet .. => Unit

abbrev LlmCalls : Iface := ⟨LlmOp, LlmOp.Resp⟩

/-- A program of the clients. -/
abbrev Llm (α : Type) := Prog LlmCalls LlmErr α

abbrev llm (o : LlmCalls.Op) : Llm (LlmCalls.Resp o) := Prog.perform o

/-- How the servers answer: a completion, one vector for each text, relevance scores by position; and the
similarity by which Qdrant ranks. -/
structure Upstream where
  create : CompletionRequest → Except LlmErr ChatCompletion
  vector : String → Nat → String → Embedding
  embedFailure : EmbeddingRequest → Option LlmErr
  rerank : RerankRequest → Except LlmErr (List (Int × ℚ))
  similarity : Embedding → Embedding → ℚ

/-- The caches of each process, Redis and the points of the documents. -/
structure LlmWorld where
  lruComplete : Nat → Lru String ChatCompletion
  lruEmbed : Nat → Lru String Embedding
  redis : String → Option CachedValue
  points : List Point

/-- One vector for each text, or a failure. -/
def Upstream.embed (up : Upstream) (r : EmbeddingRequest) : Except LlmErr (List Embedding) :=
  match up.embedFailure r with
  | some e => .error e
  | none => .ok (r.input.map (up.vector r.model r.dimensions))

/-- The best points among those that pass the filter. -/
def Upstream.search (up : Upstream) (points : List Point) (vector : Embedding)
    (must : List FieldCondition) (limit : Nat) : List (Point × ℚ) :=
  (Ranked.ranked Prod.snd ((points.filter (passes must ·)).map fun p =>
    (p, up.similarity vector p.vector))).take limit

/-- The reply to a call of the process `host`, and what it changes. -/
def llmReply (up : Upstream) (host : Nat) : (o : LlmCalls.Op) → LlmWorld →
    Except LlmErr (LlmCalls.Resp o) × LlmWorld
  | .lruGet key, w =>
    let r := (w.lruComplete host).get key
    (.ok r.1, { w with lruComplete := Function.update w.lruComplete host r.2 })
  | .lruSet key v, w =>
    (.ok (),
      { w with lruComplete := Function.update w.lruComplete host ((w.lruComplete host).set key v) })
  | .lruEmbedGet key, w =>
    let r := (w.lruEmbed host).get key
    (.ok r.1, { w with lruEmbed := Function.update w.lruEmbed host r.2 })
  | .lruEmbedSet key v, w =>
    (.ok (), { w with lruEmbed := Function.update w.lruEmbed host ((w.lruEmbed host).set key v) })
  | .cacheGet key, w => (.ok (w.redis key), w)
  | .cacheSet key v _, w => (.ok (), { w with redis := Function.update w.redis key (some v) })
  | .create r, w => (up.create r, w)
  | .embeddings r, w => (up.embed r, w)
  | .search vector must limit, w => (.ok (up.search w.points vector must limit), w)
  | .cohereRerank r, w => (up.rerank r, w)

/-- What happens besides the calls: an entry of Redis expires, a process is restarted, which forgets what
it has cached, or the points of the documents change. -/
inductive CacheEnv where
  | expire (key : String)
  | restart (host : Nat)
  | points (ps : List Point)

def CacheEnv.step : CacheEnv → LlmWorld → LlmWorld
  | .expire key, w => { w with redis := Function.update w.redis key none }
  | .restart host, w =>
    { w with
      lruComplete := Function.update w.lruComplete host (.empty 2000)
      lruEmbed := Function.update w.lruEmbed host (.empty 5000) }
  | .points ps, w => { w with points := ps }

/-- Nothing is cached. -/
def LlmWorld.cold (points : List Point) : LlmWorld :=
  ⟨fun _ => .empty 2000, fun _ => .empty 5000, fun _ => none, points⟩

/-! ### What holds of all that is kept -/

/-- What is known of every entry of the caches, and of the points. -/
structure Known where
  complete : String → ChatCompletion → Prop
  embed : String → Embedding → Prop
  redis : String → CachedValue → Prop
  points : List Point → Prop

/-- All that is kept is as `K` says. -/
structure LlmWorld.All (K : Known) (w : LlmWorld) : Prop where
  complete : ∀ host, (w.lruComplete host).All K.complete
  embed : ∀ host, (w.lruEmbed host).All K.embed
  redis : ∀ key, ∀ v ∈ w.redis key, K.redis key v
  points : K.points w.points

/-- A write of something that is as `K` says. -/
def Writes (K : Known) : LlmOp → Prop
  | .lruSet key v => K.complete key v
  | .lruEmbedSet key v => K.embed key v
  | .cacheSet key v _ => K.redis key v
  | _ => True

/-- The replies when all that is kept is as `K` says. -/
def Replies (K : Known) (up : Upstream) : (o : LlmOp) → Except LlmErr o.Resp → Prop
  | .lruGet key, r => ∃ v, r = .ok v ∧ ∀ c ∈ v, K.complete key c
  | .lruEmbedGet key, r => ∃ v, r = .ok v ∧ ∀ e ∈ v, K.embed key e
  | .cacheGet key, r => ∃ v, r = .ok v ∧ ∀ c ∈ v, K.redis key c
  | .create q, r => r = up.create q
  | .embeddings q, r => r = up.embed q
  | .search vector must limit, r =>
    ∃ points, r = .ok (up.search points vector must limit) ∧ K.points points
  | .cohereRerank q, r => r = up.rerank q
  | .lruSet .., r | .lruEmbedSet .., r | .cacheSet .., r => r = .ok ()

/-- The replies when each is of one of the servers `Ups`. -/
def RepliesOf (K : Known) (Ups : Set Upstream) (o : LlmOp) (r : Except LlmErr o.Resp) : Prop :=
  ∃ up ∈ Ups, Replies K up o r

section All

variable {K : Known} {w : LlmWorld}

theorem all_cold {points : List Point} (h : K.points points) : (LlmWorld.cold points).All K :=
  ⟨fun _ => Lru.all_empty _ 2000, fun _ => Lru.all_empty _ 5000, fun _ => nofun, h⟩

private theorem update_all {β : Type} {P : β → Prop} {f : Nat → β} (h : ∀ i, P (f i)) (host : Nat) {b : β}
    (hb : P b) : ∀ i, P (Function.update f host b i) := by
  intro i
  by_cases hi : i = host
  · subst hi
    rw [Function.update_self]
    exact hb
  · rw [Function.update_of_ne hi]
    exact h i

private theorem redis_all {P : String → CachedValue → Prop} {f : String → Option CachedValue}
    (h : ∀ k, ∀ v ∈ f k, P k v) {key : String} {b : Option CachedValue} (hb : ∀ v ∈ b, P key v) : ∀ k,
    ∀ v ∈ Function.update f key b k, P k v := by
  intro k
  by_cases hk : k = key
  · subst hk
    rw [Function.update_self]
    exact hb
  · rw [Function.update_of_ne hk]
    exact h k

/-- What holds of all that is written holds of all that is read. -/
theorem LlmWorld.All.call (hw : w.All K) (up : Upstream) (host : Nat) {o : LlmOp} (ho : Writes K o) :
    (llmReply up host o w).2.All K ∧ Replies K up o (llmReply up host o w).1 := by
  cases o with
  | lruGet key =>
    refine ⟨⟨update_all hw.complete host ((hw.complete host).get key), hw.embed, hw.redis, hw.points⟩, _,
      rfl, ?_⟩
    intro c hc
    exact (hw.complete host).get_some hc
  | lruSet key v =>
    exact ⟨⟨update_all hw.complete host ((hw.complete host).set ho), hw.embed, hw.redis, hw.points⟩, rfl⟩
  | lruEmbedGet key =>
    refine ⟨⟨hw.complete, update_all hw.embed host ((hw.embed host).get key), hw.redis, hw.points⟩, _,
      rfl, ?_⟩
    intro e he
    exact (hw.embed host).get_some he
  | lruEmbedSet key v =>
    exact ⟨⟨hw.complete, update_all hw.embed host ((hw.embed host).set ho), hw.redis, hw.points⟩, rfl⟩
  | cacheGet key => exact ⟨hw, _, rfl, hw.redis key⟩
  | cacheSet key v ttl =>
    refine ⟨⟨hw.complete, hw.embed, redis_all hw.redis ?_, hw.points⟩, rfl⟩
    intro u hu
    obtain rfl := Option.some.inj hu
    exact ho
  | create r => exact ⟨hw, rfl⟩
  | embeddings r => exact ⟨hw, rfl⟩
  | search vector must limit => exact ⟨hw, w.points, rfl, hw.points⟩
  | cohereRerank r => exact ⟨hw, rfl⟩

theorem LlmWorld.All.env (hw : w.All K) {e : CacheEnv} (he : ∀ ps, e = .points ps → K.points ps) :
    (e.step w).All K := by
  cases e with
  | expire key => exact ⟨hw.complete, hw.embed, redis_all hw.redis nofun, hw.points⟩
  | restart host =>
    exact ⟨update_all hw.complete host (Lru.all_empty _ 2000),
      update_all hw.embed host (Lru.all_empty _ 5000), hw.redis, hw.points⟩
  | points ps => exact ⟨hw.complete, hw.embed, hw.redis, he ps rfl⟩

end All

end LegalRag
