import LegalRag.Calls.Contracts
import LegalRag.Llm.Client
import Mathlib.Data.Set.Insert

/-!
# When the completion cache is transparent

The cache key of `complete` is made of the model, the messages, the temperature, `max_tokens` and
`response_format`, while the request also has `tool_choice` and `extra`.  So the cache returns the right
completion to all calls exactly when no two cacheable calls agree in the former and differ in the latter
(`transparent_iff`).
-/

namespace LegalRag

open Calls Prog Service Json

/-! ### Services on the caches -/

/-- Processes that run `program`, each request on its host. -/
def hostedService {ρ α : Type} (program : ρ → Llm α) (host : ρ → Nat) (up : Upstream) :
    Service LlmCalls LlmErr LlmWorld ρ CacheEnv α where
  program := program
  enter _ w := w
  handle _ r := llmReply up (host r)
  env e w := some (e.step w)

/-- From cold caches on, all that is cached is as `K` says, and the requests end as they should. -/
theorem accords_cold {ρ α : Type} {program : ρ → Llm α} (host : ρ → Nat) {up : Upstream} {A : ρ → Prop}
    {post : ρ → Except LlmErr α → Prop} {K : Known} {F : Prop} {ls : List (Label LlmErr ρ CacheEnv)}
    {t : State LlmCalls LlmErr LlmWorld ρ α}
    (hprog : ∀ r, A r → (program r).Accords (MayFail F (Replies K up)) (Writes K) (post r))
    (hpoints : ∀ ps, K.points ps) (hls : ∀ l ∈ ls, l.Starts A) (hfail : ∀ l ∈ ls, l.Raises → F)
    (ht : (hostedService program host up).run (idle (.cold [])) ls = some t) :
    t.Accords (MayFail F (Replies K up)) (Writes K) post (LlmWorld.All K) := by
  refine accords_run hprog (fun pid w hw => hw) ?_ ?_ (all_cold (hpoints [])) hls ?_ ht
  · intro pid r o w ho hw
    obtain ⟨hnext, hreply⟩ := hw.call up (host r) ho
    exact ⟨hnext, Or.inl hreply⟩
  · intro e w w' hw he
    obtain rfl := Option.some.inj he
    exact hw.env fun ps _ => hpoints ps
  · intro l hl hraise o e
    exact Or.inr ⟨hfail l hl hraise, e, rfl⟩

/-! ### Completions -/

/-- A call of `complete` in the process `host`. -/
structure HostedCall where
  host : Nat
  call : CompleteCall

/-- Any number of processes that call `complete` and share a Redis. -/
def completionService (sha256 : String → String) (s : LlmSettings) (up : Upstream) :
    Service LlmCalls LlmErr LlmWorld HostedCall CacheEnv ChatCompletion where
  program r := complete sha256 s r.call
  enter _ w := w
  handle _ r := llmReply up r.host
  env e w := some (e.step w)

/-- In every run of calls of `A` from cold caches, every call ends with what the server answers to its
request, or, where calls have failed on the way, with an exception. -/
def Transparent (sha256 : String → String) (s : LlmSettings) (up : Upstream) (A : Set CompleteCall) : Prop :=
  ∀ ls t, (∀ l ∈ ls, l.Starts fun r => r.call ∈ A) →
    (completionService sha256 s up).run (idle (.cold [])) ls = some t →
    ∀ pid req r, t.procs pid = some ⟨req, .done r⟩ →
      r = up.create req.call.request ∨ (∃ l ∈ ls, l.Raises) ∧ ∃ e, r = .error e

/-- The calls agree in what the cache key is made of. -/
structure SameKeyInputs (c d : CompleteCall) : Prop where
  model : c.resolvedModel = d.resolvedModel
  messages : c.messages = d.messages
  temperature : c.temperature = d.temperature
  maxTokens : c.maxTokens = d.maxTokens
  responseFormat : c.responseFormat = d.responseFormat

/-- SHA-256 has no collision among the keys of the calls. -/
def NoCollision (sha256 : String → String) (A : Set CompleteCall) : Prop :=
  ∀ c ∈ A, ∀ d ∈ A, c.cacheable → d.cacheable → sha256 (keyText c.keyParts) =
    sha256 (keyText d.keyParts) → keyText c.keyParts = keyText d.keyParts

section Keys

variable {sha256 : String → String} {A : Set CompleteCall} {c d : CompleteCall}

private theorem SameKeyInputs.cacheKey (h : SameKeyInputs c d) : c.cacheKey sha256 = d.cacheKey sha256 := by
  unfold CompleteCall.cacheKey CompleteCall.keyParts CompleteCall.params
  rw [h.model, h.messages, h.temperature, h.maxTokens, h.responseFormat]

/-- An optional value, with `null` for none. -/
private theorem orNull_inj {α : Type} {f : α → Value} (hf : ∀ a b, f a = f b → a = b)
    (hnull : ∀ a, f a ≠ .null) {x y : Option α} (h : (x.map f).getD .null = (y.map f).getD .null) :
    x = y := by
  cases x with
  | none =>
    cases y with
    | none => rfl
    | some b => exact absurd h.symm (hnull b)
  | some a =>
    cases y with
    | none => exact absurd h (hnull a)
    | some b => exact congrArg some (hf a b h)

/-- What is hashed determines what it is made of. -/
theorem sameKeyInputs_of_keyText (h : keyText c.keyParts = keyText d.keyParts) : SameKeyInputs c d := by
  obtain ⟨hmodel, hmessages, hparams⟩ := keyText_cancel h
  unfold CompleteCall.params at hparams
  simp only [Value.obj.injEq, List.cons.injEq, Prod.mk.injEq, true_and, and_true, Value.num.injEq] at hparams
  obtain ⟨hmax, hrf, ht⟩ := hparams
  refine ⟨hmodel, Value.arr.inj hmessages, ht, ?_, ?_⟩
  · exact orNull_inj (fun _ _ => Value.num.inj) (fun _ => nofun) hmax
  · exact orNull_inj (fun _ _ => Value.obj.inj) (fun _ => nofun) hrf

private theorem sameKeyInputs_of_cacheKey (hsha : NoCollision sha256 A) (hc : c ∈ A) (hd : d ∈ A)
    (hcc : c.cacheable) (hdc : d.cacheable) (h : c.cacheKey sha256 = d.cacheKey sha256) : SameKeyInputs c d :=
  sameKeyInputs_of_keyText (hsha c hc d hd hcc hdc (makeKey_text h))

private theorem tools_of_cacheable (h : c.cacheable) : c.tools = none := by
  unfold CompleteCall.cacheable at h
  simp only [Bool.and_eq_true, Option.isNone_iff_eq_none] at h
  exact h.2

/-- The requests of calls with one cache key differ in `tool_choice` and `extra` only. -/
theorem request_eq_iff (h : SameKeyInputs c d) (hc : c.cacheable) (hd : d.cacheable) :
    c.request = d.request ↔ c.toolChoice = d.toolChoice ∧ c.extra.getD [] = d.extra.getD [] := by
  unfold CompleteCall.request
  rw [h.model, h.messages, h.temperature, h.maxTokens, h.responseFormat, tools_of_cacheable hc,
    tools_of_cacheable hd]
  simp

end Keys

/-! ### The cache is right -/

/-- Under the key is an answer of the servers, in Redis and in the processes. -/
structure Known.Serves (K : Known) (key : String) (answers : Except LlmErr ChatCompletion → Prop) : Prop where
  complete : ∀ v, K.complete key v → answers (.ok v)
  redis : ∀ c, K.redis key c → ∃ v, c = .completion v ∧ K.complete key v
  takes : ∀ v, answers (.ok v) → K.complete key v ∧ K.redis key (.completion v)

section Sound

variable {sha256 : String → String} {s : LlmSettings} {up : Upstream} {A : Set CompleteCall} {K : Known}
  {c : CompleteCall} {F : Prop} {Ups : Set Upstream} {answers : Except LlmErr ChatCompletion → Prop}

private theorem completeUpstream_answers (hcreate : ∀ up ∈ Ups, answers (up.create c.request))
    {key : Option String} (hkey : ∀ k ∈ key, K.Serves k answers) :
    (completeUpstream s key c).Accords (MayFail F (RepliesOf K Ups)) (Writes K) (OrFails F answers) := by
  refine accords_call_mayFail trivial fun r hr => ?_
  obtain ⟨up, hup, rfl⟩ : ∃ up ∈ Ups, r = up.create c.request := hr
  cases hanswer : up.create c.request with
  | error e => exact Or.inl (hanswer ▸ hcreate up hup)
  | ok v =>
    have hv : answers (.ok v) := hanswer ▸ hcreate up hup
    cases key with
    | none => exact Or.inl hv
    | some k =>
      obtain ⟨hlru, hredis⟩ := (hkey k rfl).takes v hv
      refine accords_call_mayFail hlru fun r hr => ?_
      obtain ⟨_, _, rfl⟩ : ∃ up ∈ Ups, r = .ok () := hr
      refine accords_call_mayFail hredis fun r hr => ?_
      obtain ⟨_, _, rfl⟩ : ∃ up ∈ Ups, r = .ok () := hr
      exact Or.inl hv

/-- A call ends with an answer of the servers. -/
theorem complete_answers (hcreate : ∀ up ∈ Ups, answers (up.create c.request))
    (h : c.cacheable → K.Serves (c.cacheKey sha256) answers) :
    (complete sha256 s c).Accords (MayFail F (RepliesOf K Ups)) (Writes K) (OrFails F answers) := by
  unfold complete
  by_cases hcc : c.cacheable
  · have hserves := h hcc
    rw [if_pos hcc]
    refine accords_call_mayFail trivial fun r hr => ?_
    obtain ⟨_, _, found, rfl, hfound⟩ := hr
    cases found with
    | some v => exact Or.inl (hserves.complete v (hfound v rfl))
    | none =>
      refine accords_call_mayFail trivial fun r hr => ?_
      obtain ⟨_, _, found, rfl, hfound⟩ := hr
      cases found with
      | none =>
        show (completeUpstream s (some (c.cacheKey sha256)) c).Accords _ _ _
        refine completeUpstream_answers hcreate fun k hk => ?_
        obtain rfl := Option.some.inj hk
        exact hserves
      | some v =>
        obtain ⟨obj, rfl, hobj⟩ := hserves.redis v (hfound v rfl)
        refine accords_call_mayFail hobj fun r hr => ?_
        obtain ⟨_, _, rfl⟩ : ∃ up ∈ Ups, r = .ok () := hr
        exact Or.inl (hserves.complete obj hobj)
  · rw [if_neg hcc]
    exact completeUpstream_answers hcreate fun k hk => by cases hk

/-- With one server a call ends with its answer. -/
theorem complete_accords (h : c.cacheable → K.Serves (c.cacheKey sha256) fun r => r =
    up.create c.request) :
    (complete sha256 s c).Accords (MayFail F (Replies K up)) (Writes K)
      (OrFails F fun r => r = up.create c.request) := by
  have hall : (complete sha256 s c).Accords (MayFail F (RepliesOf K {up})) (Writes K)
      (OrFails F fun r => r = up.create c.request) := by
    refine complete_answers ?_ h
    rintro up' rfl
    rfl
  exact hall.imp fun o r => MayFail.imp fun o r hr => ⟨up, rfl, hr⟩

/-- A completion that the server gave to a call of `A` with this key. -/
def Answers (sha256 : String → String) (up : Upstream) (A : Set CompleteCall) (key : String)
    (v : ChatCompletion) : Prop :=
  ∃ c ∈ A, c.cacheable ∧ c.cacheKey sha256 = key ∧ up.create c.request = .ok v

/-- All that is cached was answered to a call with the key. -/
def answersKnown (sha256 : String → String) (up : Upstream) (A : Set CompleteCall) : Known where
  complete := Answers sha256 up A
  embed _ _ := True
  redis key v := ∃ c, v = .completion c ∧ Answers sha256 up A key c
  points _ := True

/-- The key determines the request. -/
def KeyDetermines (sha256 : String → String) (A : Set CompleteCall) : Prop :=
  ∀ c ∈ A, ∀ d ∈ A, c.cacheable → d.cacheable → c.cacheKey sha256 = d.cacheKey sha256 → c.request = d.request

private theorem answersKnown_serves (hdet : KeyDetermines sha256 A) (hc : c ∈ A) (hcc : c.cacheable) :
    (answersKnown sha256 up A).Serves (c.cacheKey sha256) fun r => r = up.create c.request := by
  refine ⟨?_, ?_, ?_⟩
  · intro v hv
    obtain ⟨d, hd, hdc, hkey, hanswer⟩ := hv
    rw [hdet c hc d hd hcc hdc hkey.symm]
    exact hanswer.symm
  · intro found hfound
    exact hfound
  · intro v hanswer
    have hv : Answers sha256 up A (c.cacheKey sha256) v := ⟨c, hc, hcc, rfl, hanswer.symm⟩
    exact ⟨hv, v, rfl, hv⟩

private theorem transparent_of_keyDetermines (hdet : KeyDetermines sha256 A) : Transparent sha256 s up A := by
  intro ls t hls ht pid req r hproc
  have hrun : t.Accords (MayFail (∃ l ∈ ls, l.Raises) (Replies (answersKnown sha256 up A) up))
      (Writes (answersKnown sha256 up A))
        (fun req => OrFails (∃ l ∈ ls, l.Raises) fun r => r = up.create req.call.request)
      (LlmWorld.All (answersKnown sha256 up A)) := by
    refine accords_cold HostedCall.host (fun req hreq => ?_) (fun _ => trivial) hls ?_ ht
    · exact complete_accords fun hcc => answersKnown_serves hdet hreq hcc
    · exact fun l hl hraise => ⟨l, hl, hraise⟩
  exact hrun.progs pid _ hproc

end Sound

/-! ### The cache is wrong -/

section Wrong

variable {sha256 : String → String} {s : LlmSettings} {up : Upstream} {A : Set CompleteCall}
    {c : CompleteCall}

/-- The world after a first call, which asks the server and caches the answer. -/
def afterFirst (sha256 : String → String) (c : CompleteCall) (v : ChatCompletion) (host : Nat) : LlmWorld :=
  ⟨Function.update (fun _ => .empty 2000) host ((Lru.empty 2000).set (c.cacheKey sha256) v),
    fun _ => .empty 5000, Function.update (fun _ => none) (c.cacheKey sha256) (some (.completion v)), []⟩

theorem complete_exec_cold (hcc : c.cacheable) {v : ChatCompletion} (hv : up.create c.request = .ok v)
    (host : Nat) :
    (complete sha256 s c).exec (llmReply up host) (.cold []) = (.ok v, afterFirst sha256 c v host) := by
  have hmiss : llmReply up host (.lruGet (c.cacheKey sha256)) (.cold []) = (.ok none, .cold []) := by
    show (_, LlmWorld.mk (Function.update (fun _ => Lru.empty 2000) host (Lru.empty 2000)) _ _ _) = _
    rw [Function.update_eq_self host fun _ => Lru.empty 2000]
    rfl
  unfold complete
  rw [if_pos hcc, perform_bind, exec_call, hmiss]
  show (completeUpstream s (some (c.cacheKey sha256)) c).exec _ _ = _
  unfold completeUpstream
  rw [perform_bind, exec_call]
  show (cont _ (up.create c.request)).exec _ _ = _
  rw [hv]
  rfl

private theorem get_afterFirst (c : CompleteCall) (v : ChatCompletion) (host : Nat) :
    (((afterFirst sha256 c v host).lruComplete host).get (c.cacheKey sha256)).1 = some v := by
  have hupdate : (afterFirst sha256 c v host).lruComplete host = (Lru.empty 2000).set (c.cacheKey sha256) v :=
    Function.update_self host _ fun _ => Lru.empty 2000
  rw [hupdate]
  exact Lru.get_set_empty (Nat.succ_pos 1999) _ v

/-- A call with a cached key returns what is cached. -/
private theorem complete_exec_hit (hcc : c.cacheable) {host : Nat} {w : LlmWorld} {v : ChatCompletion}
    (hv : ((w.lruComplete host).get (c.cacheKey sha256)).1 = some v) :
    ((complete sha256 s c).exec (llmReply up host) w).1 = .ok v := by
  unfold complete
  rw [if_pos hcc, perform_bind, exec_call]
  show ((cont _ (Except.ok ((w.lruComplete host).get (c.cacheKey sha256)).1)).exec _ _).1 = _
  rw [hv]
  rfl

/-- Of two calls with one cache key in one process, the second returns what the first got. -/
private theorem second_gets_first {d : CompleteCall} (hc : c ∈ A) (hd : d ∈ A) (hcc : c.cacheable)
    (hdc : d.cacheable) (hkey : c.cacheKey sha256 = d.cacheKey sha256) {v : ChatCompletion}
    (hv : up.create c.request = .ok v) :
    ∃ ls t, (∀ l ∈ ls, l.Starts fun r => r.call ∈ A) ∧ (∀ l ∈ ls, ¬ l.Raises) ∧
      (completionService sha256 s up).run (idle (.cold [])) ls = some t ∧
      t.procs 1 = some ⟨⟨0, d⟩, .done (.ok v)⟩ := by
  let S := completionService sha256 s up
  obtain ⟨ls, t, hstarts, hcalm, hrun, hproc⟩ :=
    run_serve_two (S := S) (A := fun r => r.call ∈ A) ⟨0, c⟩ ⟨0, d⟩ hc hd (.cold [])
  refine ⟨ls, t, hstarts, hcalm, hrun, ?_⟩
  have hfirst : (S.program ⟨0, c⟩).exec (S.handle 0 ⟨0, c⟩) (S.enter 0 (.cold [])) =
    (.ok v, afterFirst sha256 c v 0) :=
    complete_exec_cold hcc hv 0
  have hget : (((afterFirst sha256 c v 0).lruComplete 0).get (d.cacheKey sha256)).1 = some v := by
    rw [← hkey]
    exact get_afterFirst c v 0
  have hsecond : ((S.program ⟨0, d⟩).exec (S.handle 1 ⟨0, d⟩) (S.enter 1 (afterFirst sha256 c v 0))).1 =
    .ok v :=
    complete_exec_hit hdc hget
  rw [hproc, hfirst, hsecond]

/-- Two calls with one cache key and different requests: some server gives them different answers. -/
private theorem not_transparent {d : CompleteCall} (hc : c ∈ A) (hd : d ∈ A) (hcc : c.cacheable)
    (hdc : d.cacheable) (hkey : c.cacheKey sha256 = d.cacheKey sha256) (hne : c.request ≠ d.request) :
    ∃ up, ¬ Transparent sha256 s up A := by
  classical
  let v : ChatCompletion := ⟨[], .null⟩
  let u : ChatCompletion := ⟨[none], .null⟩
  let up : Upstream :=
    ⟨fun r => .ok (if r = c.request then v else u), fun _ _ _ => [], fun _ => none, fun _ => .ok [],
      fun _ _ => 0⟩
  have hv : up.create c.request = .ok v := congrArg Except.ok (if_pos rfl)
  have hu : up.create d.request = .ok u := congrArg Except.ok (if_neg fun h => hne h.symm)
  obtain ⟨ls, t, hstarts, hcalm, hrun, hproc⟩ := second_gets_first (s := s) hc hd hcc hdc hkey hv
  refine ⟨up, fun h => ?_⟩
  rcases h ls t hstarts hrun 1 ⟨0, d⟩ (.ok v) hproc with heq | ⟨⟨l, hl, hraise⟩, -⟩
  · rw [hu] at heq
    exact absurd (congrArg ChatCompletion.choices (Except.ok.inj heq)) (by simp [u, v])
  · exact hcalm l hl hraise

end Wrong

/-- The cache is transparent, whatever the server answers, exactly when no two cacheable calls agree in
what the key is made of and differ in `tool_choice` or `extra`. -/
theorem transparent_iff (sha256 : String → String) (s : LlmSettings) (A : Set CompleteCall)
    (hsha : NoCollision sha256 A) :
    (∀ up, Transparent sha256 s up A) ↔
      ∀ c ∈ A, ∀ d ∈ A, c.cacheable → d.cacheable → SameKeyInputs c d →
        c.toolChoice = d.toolChoice ∧ c.extra.getD [] = d.extra.getD [] := by
  constructor
  · intro h c hc d hd hcc hdc hsame
    by_contra hdiff
    have hne : c.request ≠ d.request := fun heq => hdiff ((request_eq_iff hsame hcc hdc).mp heq)
    obtain ⟨up, hup⟩ := not_transparent (s := s) hc hd hcc hdc hsame.cacheKey hne
    exact hup (h up)
  · intro h up
    refine transparent_of_keyDetermines fun c hc d hd hcc hdc hkey => ?_
    have hsame := sameKeyInputs_of_cacheKey hsha hc hd hcc hdc hkey
    exact (request_eq_iff hsame hcc hdc).mpr (h c hc d hd hcc hdc hsame)

/-! ### Calls that share a key -/

/-- A call with one message, at temperature 0.0, with the given `extra`. -/
def askOnce (content : String) (extra : Option (List (String × Value))) : CompleteCall where
  clientModel := "gemini-2.5-flash"
  messages := [.obj [("content", .str content), ("role", .str "user")]]
  model := none
  temperature := floatZero
  maxTokens := none
  responseFormat := none
  tools := none
  toolChoice := none
  useCache := true
  extra := extra

/-- `extra={"seed": 7}`. -/
def seeded : List (String × Value) :=
  [("seed", .num ⟨['7'], List.cons_ne_nil _ _, List.all_eq_true.mp rfl⟩)]

/-- A server that answers with the further arguments it got. -/
def echoExtra : Upstream where
  create r := .ok ⟨[], .obj r.extra⟩
  vector _ _ _ := []
  embedFailure _ := none
  rerank _ := .ok []
  similarity _ _ := 0

/-- A call with a seed gets the answer to the call without one. -/
theorem not_always_transparent :
    ¬ ∃ sha256 : String → String, Transparent sha256 llmDefaults echoExtra
      {askOnce "Ping" none, askOnce "Ping" (some seeded)} := by
  intro ⟨sha256, h⟩
  have hanswer : echoExtra.create (askOnce "Ping" none).request = .ok ⟨[], .obj []⟩ := rfl
  have hkey : (askOnce "Ping" none).cacheKey sha256 = (askOnce "Ping" (some seeded)).cacheKey sha256 :=
    rfl
  obtain ⟨ls, t, hstarts, hcalm, hrun, hproc⟩ := second_gets_first (s := llmDefaults)
    (A := {askOnce "Ping" none, askOnce "Ping" (some seeded)}) (Or.inl rfl) (Or.inr rfl) rfl rfl hkey hanswer
  rcases h ls t hstarts hrun 1 _ _ hproc with heq | ⟨⟨l, hl, hraise⟩, -⟩
  · have hrest := congrArg ChatCompletion.rest (Except.ok.inj heq)
    simp [askOnce, seeded, CompleteCall.request] at hrest
  · exact hcalm l hl hraise

/-- The digests of the keys of two questions. -/
def questionDigests : String → String :=
  digestTable [("gemini-2.5-flash|[\x7b\"content\":\"Ping\",\"role\":\"user\"\x7d]|\x7b\"max\":null,\"rf\":null,\"t\":0.0\x7d|",
      "d2bf56406da27d655c90e0933f4cc9d1375e54d9448d613832eff28468c183cc"),
    ("gemini-2.5-flash|[\x7b\"content\":\"Pong\",\"role\":\"user\"\x7d]|\x7b\"max\":null,\"rf\":null,\"t\":0.0\x7d|",
      "94271ffe6f43ac42d071173959754abdbb5467dd799528bca360c4c8762413ee")]

theorem transparent_twoQuestions :
    (∀ up, Transparent questionDigests llmDefaults up {askOnce "Ping" none, askOnce "Pong" none}) ∧
      (askOnce "Ping" none).cacheKey questionDigests ≠ (askOnce "Pong" none).cacheKey questionDigests := by
  have hkeys : questionDigests (keyText (askOnce "Ping" none).keyParts) ≠
      questionDigests (keyText (askOnce "Pong" none).keyParts) := by decide +kernel
  have hsha : NoCollision questionDigests {askOnce "Ping" none, askOnce "Pong" none} := by
    intro c hc d hd _ _ h
    rcases hc with rfl | rfl <;> rcases hd with rfl | rfl
    · rfl
    · exact absurd h hkeys
    · exact absurd h.symm hkeys
    · rfl
  refine ⟨(transparent_iff questionDigests llmDefaults _ hsha).mpr ?_, ?_⟩
  · intro c hc d hd _ _ _
    rcases hc with rfl | rfl <;> rcases hd with rfl | rfl <;> exact ⟨rfl, rfl⟩
  · intro h
    exact hkeys (makeKey_text h)

end LegalRag
