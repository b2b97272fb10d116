import LegalRag.Llm.Deployments

/-!
# The batches of `embed`

A call of `embed` among other users of the caches: between its own calls the caches may change in any way
that keeps them right, and the server may give any reply to each batch.  `embed_batches` says what is
sent, what comes back and what is cached if the server gives the vectors of the texts; and that the call
raises if it gives more or fewer vectors than texts.
-/

namespace LegalRag

open Calls Prog

/-- The caches, how many calls were made, and the batches with their replies. -/
structure EmbedRun where
  caches : LlmWorld
  calls : Nat
  answered : List (EmbeddingRequest × Except LlmErr (List Embedding))

/-- What is outside of a call of `embed`: the reply to each batch, and what happens to the caches between
its calls. -/
structure EmbedOutside where
  host : Nat
  up : Upstream
  serve : Nat → EmbeddingRequest → Except LlmErr (List Embedding)
  between : Nat → LlmWorld → LlmWorld

/-- The reply to a call, and what it changes. -/
def embedReply (x : EmbedOutside) : (o : LlmCalls.Op) → EmbedRun → Except LlmErr (LlmCalls.Resp o) × EmbedRun
  | .embeddings r, w =>
    (x.serve w.calls r, ⟨x.between w.calls w.caches, w.calls + 1, w.answered ++ [(r, x.serve w.calls r)]⟩)
  | o, w =>
    ((llmReply x.up x.host o (x.between w.calls w.caches)).1,
      ⟨(llmReply x.up x.host o (x.between w.calls w.caches)).2, w.calls + 1, w.answered⟩)

/-- The calls of the caches. -/
def Caching : LlmCalls.Op → Prop
  | .embeddings _ => False
  | _ => True

/-- Under the key of each of the texts there is its vector, or nothing. -/
def vectorKnown (sha256 : String → String) (s : LlmSettings) (up : Upstream) (T : Set String) : Known where
  complete _ _ := True
  embed key e := ∀ t ∈ T, embedKey sha256 s.embeddingModel t = key → e = up.current s t
  redis key c := ∀ t ∈ T, embedKey sha256 s.embeddingModel t = key → c = .vector (up.current s t)
  points _ := True

variable {sha256 : String → String} {s : LlmSettings} {up : Upstream} {T : Set String} {useCache : Bool}
  {texts : List String} {x : EmbedOutside} {w w' : EmbedRun}

private theorem answered_of_caching {o : LlmCalls.Op} (ho : Caching o) (w : EmbedRun) :
    (embedReply x o w).2.answered = w.answered := by
  cases o with
  | embeddings r => exact absurd ho not_false
  | _ => rfl

private theorem vectorKnown_takes (hsha : NoEmbedCollision sha256 (fun _ => s) fun _ => T) {t : String}
    (ht : t ∈ T) :
    (vectorKnown sha256 s up T).Takes (embedKey sha256 s.embeddingModel t) (up.current s t) := by
  have hsame : ∀ t' ∈ T, embedKey sha256 s.embeddingModel t' = embedKey sha256 s.embeddingModel t →
      t = t' := by
    intro t' ht' h
    exact keyText_pair_cancel (hsha 0 0 t t' ht ht' (makeKey_text h.symm))
  constructor
  · intro t' ht' h
    rw [hsame t' ht' h]
  · intro t' ht' h
    rw [hsame t' ht' h]

private theorem cacheRight_of_noCollision (hsha : NoEmbedCollision sha256 (fun _ => s) fun _ => T)
    (htexts : ∀ t ∈ texts, t ∈ T) : CacheRight sha256 s up (vectorKnown sha256 s up T) useCache texts := by
  constructor
  · intro _ t ht
    refine ⟨fun e he => he t (htexts t ht) rfl, fun c hc => ⟨hc t (htexts t ht) rfl, ?_⟩⟩
    exact (vectorKnown_takes hsha (htexts t ht)).embed
  · intro _ _ t ht
    exact vectorKnown_takes hsha (htexts t ht)

/-! ### The server gives the vectors -/

/-- The request of a batch. -/
def batchRequest (s : LlmSettings) (batch : List (Nat × String)) : EmbeddingRequest :=
  ⟨s.embeddingModel, batch.map Prod.snd, s.embeddingDim⟩

/-- The caches are right, and these batches have been answered meanwhile. -/
structure Advances (K : Known) (w w' : EmbedRun)
    (batches : List (EmbeddingRequest × Except LlmErr (List Embedding))) : Prop where
  caches : w'.caches.All K
  answered : w'.answered = w.answered ++ batches

section Right

variable {K : Known}

private theorem Advances.refl (hw : w.caches.All K) : Advances K w w [] := ⟨hw, (List.append_nil _).symm⟩

private theorem Advances.trans {w'' : EmbedRun}
    {bs bs' : List (EmbeddingRequest × Except LlmErr (List Embedding))} (h : Advances K w w' bs)
    (h' : Advances K w' w'' bs') : Advances K w w'' (bs ++ bs') :=
  ⟨h'.caches, by rw [h'.answered, h.answered, List.append_assoc]⟩

private theorem exec_llm {α : Type} (o : LlmOp) (f : o.Resp → Llm α) : (llm o >>= f).exec (embedReply x) w =
    (cont f (embedReply x o w).1).exec (embedReply x) (embedReply x o w).2 := rfl

variable (hbetween : ∀ n v, v.All K → (x.between n v).All K)

include hbetween

/-- A call of a cache. -/
private theorem advances_call {o : LlmOp} (hw : w.caches.All K) (ho : Writes K o) (hcache : Caching o) :
    Advances K w (embedReply x o w).2 [] ∧ Replies K x.up o (embedReply x o w).1 := by
  obtain ⟨hcaches, hreply⟩ := (hbetween w.calls w.caches hw).call x.up x.host ho
  cases o with
  | embeddings r => exact absurd hcache not_false
  | _ => exact ⟨⟨hcaches, (List.append_nil _).symm⟩, hreply⟩

private theorem lookupVector_right {key : String} {v : Embedding} (hw : w.caches.All K) (h : K.Finds key v) :
    ∃ r w', (lookupVector key).exec (embedReply x) w = (.ok r, w') ∧ (∀ e ∈ r, e = v) ∧
      Advances K w w' [] := by
  obtain ⟨hfirst, found, hfound, hmem⟩ :=
    advances_call (o := .lruEmbedGet key) hbetween hw trivial trivial
  unfold lookupVector
  rw [exec_llm, hfound, cont_ok]
  cases found with
  | some e => exact ⟨some e, _, rfl, fun e' he' => h.embed e' (hmem e' he'), hfirst⟩
  | none =>
    obtain ⟨hsecond, stored, hstored, hmem⟩ :=
      advances_call (o := .cacheGet key) hbetween hfirst.caches trivial
      trivial
    show ∃ r w', ((llm (.cacheGet key) >>= _).exec (embedReply x) _) = _ ∧ _
    rw [exec_llm, hstored, cont_ok]
    cases stored with
    | none =>
      refine ⟨none, _, rfl, ?_, hfirst.trans hsecond⟩
      intro e he
      cases he
    | some c =>
      obtain ⟨rfl, hembed⟩ := h.redis c (hmem c rfl)
      obtain ⟨hthird, hset⟩ :=
        advances_call (o := .lruEmbedSet key v) hbetween hsecond.caches hembed trivial
      show ∃ r w', ((llm (.lruEmbedSet key v) >>= _).exec (embedReply x) _) = _ ∧ _
      rw [exec_llm, hset, cont_ok]
      refine ⟨some v, _, rfl, ?_, hfirst.trans (hsecond.trans hthird)⟩
      intro e he
      exact (Option.some.inj he).symm

private theorem lookupAll_right (hw : w.caches.All K) (h : CacheRight sha256 s up K useCache texts) :
    ∃ found w', (lookupAll sha256 s useCache texts).exec (embedReply x) w = (.ok found, w') ∧
      Fits (up.current s) texts found ∧ Advances K w w' [] := by
  induction texts generalizing w with
  | nil => exact ⟨[], w, rfl, List.Forall₂.nil, Advances.refl hw⟩
  | cons t ts ih =>
    have hrest : CacheRight sha256 s up K useCache ts :=
      ⟨fun hc u hu => h.finds hc u (List.mem_cons_of_mem t hu),
        fun hc hs u hu => h.takes hc hs u (List.mem_cons_of_mem t hu)⟩
    cases useCache with
    | false =>
      obtain ⟨vs, w₁, hvs, hfits, hadv⟩ := ih hw hrest
      refine ⟨none :: vs, w₁, ?_, List.Forall₂.cons ?_ hfits, hadv⟩
      · show ((lookupAll sha256 s false ts >>= fun vs => pure (none :: vs)).exec (embedReply x) w) = _
        rw [exec_bind, hvs]
        rfl
      · intro e he
        cases he
    | true =>
      obtain ⟨v, w₁, hfirst, hv, hadv⟩ :=
        lookupVector_right hbetween hw (h.finds rfl t (List.mem_cons_self ..))
      obtain ⟨vs, w₂, hvs, hfits, hadv'⟩ := ih hadv.caches hrest
      refine ⟨v :: vs, w₂, ?_, List.Forall₂.cons hv hfits, hadv.trans hadv'⟩
      show ((lookupVector (embedKey sha256 s.embeddingModel t) >>= fun v =>
        lookupAll sha256 s true ts >>= fun vs =>
        pure (v :: vs)).exec (embedReply x) w) = _
      rw [exec_bind, hfirst]
      show ((lookupAll sha256 s true ts >>= fun vs => pure (v :: vs)).exec (embedReply x) w₁) = _
      rw [exec_bind, hvs]
      rfl

/-- The vectors of a batch are put into their places and cached. -/
private theorem storeBatch_right (hw : w.caches.All K) (h : CacheRight sha256 s up K useCache texts)
    (hsize : 0 < s.embeddingBatchSize) {rest batch : List (Nat × String)}
    (hbatch : ∀ y ∈ batch, texts[y.1]? = some y.2) {results : List (Option Embedding)}
    (hfits : Fits (up.current s) texts results) (hempty : EmptyOnly (batch ++ rest) results) :
    ∃ res w', (storeBatch sha256 s useCache batch (batch.map fun y => up.current s y.2) results).exec
      (embedReply x) w =
      (.ok res, w') ∧ Fits (up.current s) texts res ∧ EmptyOnly rest res ∧ Advances K w w' [] := by
  induction batch generalizing results w with
  | nil => exact ⟨results, w, rfl, hfits, hempty, Advances.refl hw⟩
  | cons y batch ih =>
    have hy : texts[y.1]? = some y.2 := hbatch y (List.mem_cons_self ..)
    have hbatch' : ∀ z ∈ batch, texts[z.1]? = some z.2 := fun z hz => hbatch z (List.mem_cons_of_mem y hz)
    have hfits' := hfits.set hy
    have hempty' := hempty.set (up.current s y.2)
    cases useCache with
    | false => exact ih hw hbatch' hfits' hempty'
    | true =>
      have htakes := h.takes rfl hsize y.2 (List.mem_of_getElem? hy)
      obtain ⟨hfirst, hlru⟩ :=
        advances_call (o := .lruEmbedSet (embedKey sha256 s.embeddingModel y.2) (up.current s y.2))
        hbetween hw htakes.embed trivial
      obtain ⟨hsecond, hredis⟩ := advances_call (o := .cacheSet (embedKey sha256 s.embeddingModel y.2)
        (.vector (up.current s y.2)) s.cacheTtlEmbeddingS) hbetween hfirst.caches htakes.redis trivial
      obtain ⟨res, w', hres, hfits'', hempty'', hadv⟩ := ih hsecond.caches hbatch' hfits' hempty'
      refine ⟨res, w', ?_, hfits'', hempty'', hfirst.trans (hsecond.trans hadv)⟩
      show ((llm (.lruEmbedSet _ _) >>= fun _ => llm (.cacheSet _ _ _) >>= fun _ => _ : Llm _).exec
        (embedReply x) w) = _
      rw [exec_llm, hlru, cont_ok, exec_llm, hredis, cont_ok]
      exact hres

/-- All batches are sent in order, and all places are filled. -/
private theorem fetchBatches_right (hw : w.caches.All K) (h : CacheRight sha256 s up K useCache texts)
    (hsize : 0 < s.embeddingBatchSize)
    (hserve : ∀ n r, x.serve n r = .ok (r.input.map (up.vector r.model r.dimensions)))
    {batches : List (List (Nat × String))} (hbatches : ∀ y ∈ batches.flatten, texts[y.1]? = some y.2)
    {results : List (Option Embedding)} (hfits : Fits (up.current s) texts results)
    (hempty : EmptyOnly batches.flatten results) :
    ∃ res w', (fetchBatches sha256 s useCache batches results).exec (embedReply x) w = (.ok res, w') ∧
      Fits (up.current s) texts res ∧ EmptyOnly [] res ∧ Advances K w w' (batches.map fun b =>
          (batchRequest s b, .ok (b.map fun y => up.current s y.2))) := by
  induction batches generalizing results w with
  | nil => exact ⟨results, w, rfl, hfits, hempty, Advances.refl hw⟩
  | cons batch batches ih =>
    have hanswer : x.serve w.calls (batchRequest s batch) = .ok (batch.map fun y => up.current s y.2) := by
      rw [hserve]
      refine congrArg Except.ok ?_
      exact List.map_map ..
    obtain ⟨w₁, hw₁, hsent⟩ : ∃ w₁, embedReply x (.embeddings (batchRequest s batch)) w =
      (.ok (batch.map fun y => up.current s y.2), w₁) ∧
        Advances K w w₁ [(batchRequest s batch, .ok (batch.map fun y => up.current s y.2))] := by
      refine ⟨⟨x.between w.calls w.caches, w.calls + 1, w.answered ++
        [(batchRequest s batch, x.serve w.calls (batchRequest s batch))]⟩, ?_, hbetween _ _ hw, ?_⟩
      · show (x.serve w.calls (batchRequest s batch), _) = _
        rw [hanswer]
      · rw [hanswer]
    obtain ⟨res₂, w₂, hstore, hfits₂, hempty₂, hadv₂⟩ := storeBatch_right hbetween hsent.caches h hsize
      (fun y hy => hbatches y (List.mem_append_left _ hy)) hfits hempty
    obtain ⟨res, w', hfetch, hfits', hempty', hadv⟩ :=
      ih hadv₂.caches (fun y hy => hbatches y (List.mem_append_right _ hy)) hfits₂
      hempty₂
    refine ⟨res, w', ?_, hfits', hempty', hsent.trans (hadv₂.trans hadv)⟩
    show ((llm (.embeddings (batchRequest s batch)) >>= fun vectors =>
      storeBatch sha256 s useCache batch vectors results >>= fun results =>
      fetchBatches sha256 s useCache batches results : Llm _).exec (embedReply x) w) = _
    rw [exec_llm, hw₁, cont_ok, exec_bind, hstore]
    exact hfetch

end Right

/-! ### Any server -/

private theorem lookupVector_caching (key : String) : (lookupVector key).Only Caching := by
  unfold lookupVector
  refine follows_bind ⟨trivial, fun found _ => ?_, fun _ => trivial⟩
  cases found with
  | some v => trivial
  | none =>
    refine follows_bind ⟨trivial, fun stored _ => ?_, fun _ => trivial⟩
    cases stored with
    | none => trivial
    | some c =>
      cases c with
      | vector v => exact ⟨trivial, fun _ _ => trivial, fun _ => trivial⟩
      | _ => trivial

private theorem lookupAll_caching : (lookupAll sha256 s useCache texts).Only Caching := by
  induction texts with
  | nil => trivial
  | cons t ts ih =>
    have hrest : ∀ v, (lookupAll sha256 s useCache ts >>= fun vs => pure (v :: vs)).Only Caching :=
      fun v => only_bind ih fun _ => trivial
    cases useCache with
    | false => exact hrest none
    | true => exact only_bind (lookupVector_caching _) hrest

private theorem lookupAll_length :
    (lookupAll sha256 s useCache texts).Follows (fun _ _ => True) Caching
      fun vs => vs.length = texts.length := by
  induction texts with
  | nil => exact rfl
  | cons t ts ih =>
    have hrest : ∀ v, (lookupAll sha256 s useCache ts >>= fun vs => pure (v :: vs)).Follows
        (fun _ _ => True) Caching fun vs => vs.length = ts.length + 1 :=
      fun v => follows_bind (ih.mono fun vs hvs => congrArg Nat.succ hvs)
    cases useCache with
    | false => exact hrest none
    | true => exact follows_bind ((lookupVector_caching _).mono fun v _ => hrest v)

/-- What storing the vectors of a batch leaves of the places. -/
structure BatchStored (batch : List (Nat × String)) (vectors : List Embedding)
    (results res : List (Option Embedding)) : Prop where
  /-- `zip` has not raised. -/
  strict : vectors.length = batch.length
  places : res.length = results.length
  filled : ∀ rest, EmptyOnly (batch ++ rest) results → EmptyOnly rest res

private theorem storeBatch_strict (sha256 : String → String) (s : LlmSettings) (useCache : Bool)
    (batch : List (Nat × String)) (vectors : List Embedding) (results : List (Option Embedding)) :
    (storeBatch sha256 s useCache batch vectors results).Follows (fun _ _ => True) Caching
      (BatchStored batch vectors results) := by
  induction batch generalizing vectors results with
  | nil =>
    cases vectors with
    | nil => exact ⟨rfl, rfl, fun _ h => h⟩
    | cons v vectors => trivial
  | cons y batch ih =>
    cases vectors with
    | nil => trivial
    | cons v vectors =>
      have hnext : (storeBatch sha256 s useCache batch vectors (results.set y.1 (some v))).Follows
          (fun _ _ => True) Caching (BatchStored (y :: batch) (v :: vectors) results) := by
        refine (ih vectors (results.set y.1 (some v))).mono fun res h => ?_
        refine ⟨congrArg Nat.succ h.strict, h.places.trans List.length_set, fun rest hrest => ?_⟩
        exact h.filled rest (hrest.set v)
      cases useCache with
      | false => exact hnext
      | true =>
        exact ⟨trivial, fun _ _ => ⟨trivial, fun _ _ => hnext, fun _ => trivial⟩, fun _ => trivial⟩

/-- If the loop over the batches comes to its end, no place is empty. -/
private theorem fetchBatches_length (sha256 : String → String) (s : LlmSettings) (useCache : Bool)
    (batches : List (List (Nat × String))) {results : List (Option Embedding)}
    (hempty : EmptyOnly batches.flatten results) :
    (fetchBatches sha256 s useCache batches results).Follows (fun _ _ => True) (fun _ => True)
      fun res => res.length = results.length ∧ EmptyOnly [] res := by
  induction batches generalizing results with
  | nil => exact ⟨rfl, hempty⟩
  | cons batch batches ih =>
    refine follows_bind ⟨trivial, fun vectors _ => ?_, fun _ => trivial⟩
    refine follows_bind (((storeBatch_strict sha256 s useCache batch vectors results).weaken
      fun _ _ => trivial).mono fun stored h => ?_)
    refine (ih (h.filled _ hempty)).mono fun res hres => ?_
    exact ⟨hres.1.trans h.places, hres.2⟩

/-- If batches are answered and no error is raised, each has as many vectors as texts. -/
private theorem fetchBatches_strict (sha256 : String → String) (s : LlmSettings) (useCache : Bool)
    (x : EmbedOutside) (batches : List (List (Nat × String))) (results : List (Option Embedding))
    (w : EmbedRun) :
    ∃ answers, ((fetchBatches sha256 s useCache batches results).exec (embedReply x) w).2.answered =
      w.answered ++ answers ∧
      ∀ res, ((fetchBatches sha256 s useCache batches results).exec (embedReply x) w).1 = .ok res →
        ∀ r vs, (r, Except.ok vs) ∈ answers → vs.length = r.input.length := by
  induction batches generalizing results w with
  | nil =>
    refine ⟨[], (List.append_nil _).symm, ?_⟩
    intro res _ r vs hmem
    cases hmem
  | cons batch batches ih =>
    -- the first batch is sent, and the rest of the loop goes on from what is answered
    have hexec : (fetchBatches sha256 s useCache (batch :: batches) results).exec (embedReply x) w =
        (cont (fun vectors => storeBatch sha256 s useCache batch vectors results >>=
          fetchBatches sha256 s useCache batches)
          (x.serve w.calls (batchRequest s batch))).exec (embedReply x)
            (embedReply x (.embeddings (batchRequest s batch)) w).2 := rfl
    rw [hexec]
    generalize hw₁ : (embedReply x (.embeddings (batchRequest s batch)) w).2 = w₁
    have hsent : w₁.answered = w.answered ++
        [(batchRequest s batch, x.serve w.calls (batchRequest s batch))] := by
      rw [← hw₁]
      rfl
    cases hserve : x.serve w.calls (batchRequest s batch) with
    | error e =>
      refine ⟨_, hsent, ?_⟩
      intro res h
      cases h
    | ok vectors =>
      have hstrict := storeBatch_strict sha256 s useCache batch vectors results
      have hstored : ((storeBatch sha256 s useCache batch vectors results).exec
        (embedReply x) w₁).2.answered = w₁.answered :=
        exec_of_only (P := Caching) (f := EmbedRun.answered) (fun o w ho => answered_of_caching ho w)
          (hstrict.mono fun _ _ => trivial) w₁
      rw [cont_ok, exec_bind]
      generalize hstore : (storeBatch sha256 s useCache batch vectors results).exec (embedReply x) w₁ =
        out at hstored ⊢
      obtain ⟨stored, w₂⟩ := out
      cases stored with
      | error e =>
        refine ⟨_, hstored.trans hsent, ?_⟩
        intro res h
        cases h
      | ok stored =>
        -- `zip` has not raised, so that there is a vector for every text
        have hlength : vectors.length = batch.length :=
          (post_of_follows (fun _ _ _ _ => trivial) hstrict (congrArg Prod.fst hstore)).strict
        obtain ⟨answers, hanswers, hrest⟩ := ih stored w₂
        refine ⟨(batchRequest s batch, x.serve w.calls (batchRequest s batch)) :: answers, ?_, ?_⟩
        · show ((fetchBatches sha256 s useCache batches stored).exec (embedReply x) w₂).2.answered = _
          rw [hanswers, show w₂.answered = _ from hstored, hsent, List.append_assoc]
          rfl
        · intro res hres r vs hmem
          rcases List.mem_cons.mp hmem with heq | hmem
          · obtain ⟨rfl, hvs⟩ := Prod.mk.inj heq
            rw [hserve] at hvs
            obtain rfl := Except.ok.inj hvs
            show vs.length = (batch.map Prod.snd).length
            rw [hlength, List.length_map]
          · exact hrest res hres r vs hmem

/-! ### The whole call -/

/-- A call of `embed` returns the vectors: what it found in the caches, what it sent, and what is in the
caches then. -/
structure EmbedDone (sha256 : String → String) (s : LlmSettings) (texts : List String) (useCache : Bool)
    (x : EmbedOutside) (K : Known) (w : EmbedRun) (found : List (Option Embedding))
    (batches : List (List (Nat × String))) : Prop where
  looked : ((lookupAll sha256 s useCache texts).exec (embedReply x) w).1 = .ok found
  served : Fits (x.up.current s) texts found
  returned : ((embed sha256 s texts useCache).exec (embedReply x) w).1 = .ok (texts.map (x.up.current s))
  /-- Each text that was not found is in one batch, at one position. -/
  once : batches.flatten = missesOf texts found
  sized : ∀ b ∈ batches, b.length ≤ s.embeddingBatchSize
  sent : ((embed sha256 s texts useCache).exec (embedReply x) w).2.answered =
    w.answered ++ batches.map fun b => (batchRequest s b, .ok (b.map fun y => x.up.current s y.2))
  caches : ((embed sha256 s texts useCache).exec (embedReply x) w).2.caches.All K

/-- Without the early returns, which change nothing. -/
private theorem embed_eq (hsize : 0 < s.embeddingBatchSize) :
    embed sha256 s texts useCache = lookupAll sha256 s useCache texts >>= fun found =>
      fetchBatches sha256 s useCache (Redis.slices s.embeddingBatchSize (missesOf texts found)) found >>=
      fun results =>
        pure (results.filterMap id) := by
  unfold embed
  by_cases hnil : texts = []
  · subst hnil
    rw [if_pos rfl]
    show _ = fetchBatches sha256 s useCache (Redis.slices s.embeddingBatchSize []) [] >>= fun results =>
      pure (results.filterMap id)
    rw [Redis.slices_nil hsize]
    rfl
  rw [if_neg hnil]
  refine congrArg (lookupAll sha256 s useCache texts >>= ·) (funext fun found => ?_)
  by_cases hmisses : missesOf texts found = []
  · rw [if_pos hmisses, hmisses, Redis.slices_nil hsize]
    rfl
  rw [if_neg hmisses, if_neg (Nat.ne_of_gt hsize)]

private theorem embed_done {K : Known} (hbetween : ∀ n v, v.All K → (x.between n v).All K)
    (hw : w.caches.All K) (h : CacheRight sha256 s x.up K useCache texts) (hsize : 0 < s.embeddingBatchSize)
    (hserve : ∀ n r, x.serve n r = .ok (r.input.map (x.up.vector r.model r.dimensions))) :
    ∃ found batches, EmbedDone sha256 s texts useCache x K w found batches := by
  obtain ⟨found, w₁, hlookup, hfits, hadv⟩ := lookupAll_right hbetween hw h
  have hempty := emptyOnly_missesOf hfits.length_eq
  have hempty' : EmptyOnly (Redis.slices s.embeddingBatchSize (missesOf texts found)).flatten found := by
    rw [Redis.flatten_slices hsize]
    exact hempty
  have hplaces : ∀ y ∈ (Redis.slices s.embeddingBatchSize (missesOf texts found)).flatten,
      texts[y.1]? = some y.2 := by
    rw [Redis.flatten_slices hsize]
    exact fun y hy => (mem_missesOf.mp hy).1
  obtain ⟨res, w₂, hfetch, hfits', hfilled, hadv'⟩ :=
    fetchBatches_right hbetween hadv.caches h hsize hserve hplaces hfits hempty'
  have hexec : (embed sha256 s texts useCache).exec (embedReply x) w =
      (.ok (texts.map (x.up.current s)), w₂) := by
    rw [embed_eq hsize, exec_bind, hlookup]
    show ((fetchBatches sha256 s useCache _ found >>= fun results => pure (results.filterMap id)).exec
      (embedReply x) w₁) = _
    rw [exec_bind, hfetch]
    exact congrArg (fun vs => (Except.ok vs, w₂)) (hfits'.filled hfilled)
  refine ⟨found, Redis.slices s.embeddingBatchSize (missesOf texts found), ?_⟩
  constructor
  · rw [hlookup]
  · exact hfits
  · rw [hexec]
  · exact Redis.flatten_slices hsize _
  · exact fun b hb => Redis.length_le_of_mem_slices hb
  · rw [hexec]
    exact (hadv.trans hadv').answered
  · rw [hexec]
    exact hadv'.caches

/-- If batches are answered and no error is raised, each has as many vectors as texts. -/
private theorem embed_strict (sha256 : String → String) (texts : List String) (useCache : Bool)
    (x : EmbedOutside) (hsize : 0 < s.embeddingBatchSize) (w : EmbedRun) :
    ∃ answers, ((embed sha256 s texts useCache).exec (embedReply x) w).2.answered =
      w.answered ++ answers ∧
      ∀ vectors, ((embed sha256 s texts useCache).exec (embedReply x) w).1 = .ok vectors →
        ∀ r vs, (r, Except.ok vs) ∈ answers → vs.length = r.input.length := by
  have hlooked : ((lookupAll sha256 s useCache texts).exec (embedReply x) w).2.answered = w.answered :=
    exec_of_only (P := Caching) (f := EmbedRun.answered) (fun o w ho => answered_of_caching ho w)
      lookupAll_caching w
  rw [embed_eq hsize, exec_bind]
  generalize (lookupAll sha256 s useCache texts).exec (embedReply x) w = out at hlooked ⊢
  obtain ⟨found, w₁⟩ := out
  cases found with
  | error e =>
    refine ⟨[], hlooked.trans (List.append_nil _).symm, ?_⟩
    intro vectors h
    cases h
  | ok found =>
    obtain ⟨answers, hanswers, hstrict⟩ := fetchBatches_strict sha256 s useCache x
      (Redis.slices s.embeddingBatchSize (missesOf texts found)) found w₁
    refine ⟨answers, ?_, ?_⟩
    · show (((fetchBatches sha256 s useCache _ found >>= fun results => pure (results.filterMap id)).exec
        (embedReply x) w₁).2).answered = _
      rw [exec_bind]
      cases ((fetchBatches sha256 s useCache (Redis.slices s.embeddingBatchSize (missesOf texts found))
        found).exec (embedReply x) w₁).1
      all_goals exact hanswers.trans (congrArg (· ++ answers) hlooked)
    · intro vectors hvectors r vs hmem
      replace hvectors :
        ((fetchBatches sha256 s useCache (Redis.slices s.embeddingBatchSize (missesOf texts found)) found >>=
        fun results => pure (results.filterMap id)).exec (embedReply x) w₁).1 = .ok vectors := hvectors
      rw [exec_bind] at hvectors
      cases hres : ((fetchBatches sha256 s useCache
        (Redis.slices s.embeddingBatchSize (missesOf texts found)) found).exec
        (embedReply x) w₁).1 with
      | error e =>
        rw [hres] at hvectors
        cases hvectors
      | ok res => exact hstrict res hres r vs hmem

private theorem length_filled {results : List (Option Embedding)} (h : EmptyOnly [] results) :
    (results.filterMap id).length = results.length := by
  refine List.filterMap_length_eq_length.mpr fun v hv => ?_
  obtain ⟨i, hi⟩ := List.getElem?_of_mem hv
  cases v with
  | none => exact absurd (h i hi) List.not_mem_nil
  | some e => rfl

/-- With any caches and any server: what `embed` returns has a vector for each text. -/
theorem embed_length (sha256 : String → String) (s : LlmSettings) (texts : List String) (useCache : Bool) :
    (embed sha256 s texts useCache).Follows (fun _ _ => True) (fun _ => True)
      fun vs => vs.length = texts.length := by
  unfold embed
  by_cases hnil : texts = []
  · rw [if_pos hnil, hnil]
    exact rfl
  rw [if_neg hnil]
  refine follows_bind ((lookupAll_length.weaken fun _ _ => trivial).mono fun found hfound => ?_)
  have hempty : EmptyOnly (missesOf texts found) found := emptyOnly_missesOf hfound.symm
  by_cases hmisses : missesOf texts found = []
  · rw [if_pos hmisses]
    rw [hmisses] at hempty
    exact (length_filled hempty).trans hfound
  rw [if_neg hmisses]
  by_cases hsize : s.embeddingBatchSize = 0
  · rw [if_pos hsize]
    trivial
  rw [if_neg hsize]
  have hbatches : EmptyOnly (Redis.slices s.embeddingBatchSize (missesOf texts found)).flatten found := by
    rw [Redis.flatten_slices (Nat.pos_of_ne_zero hsize)]
    exact hempty
  refine follows_bind ((fetchBatches_length sha256 s useCache _ hbatches).mono fun res hres => ?_)
  exact (length_filled hres.2).trans (hres.1.trans hfound)

/-- While the caches stay right between its own calls and the server gives the vectors of the texts,
`embed` returns the vector of each text, each text that was not found is sent at one position of one
batch, and the caches are right afterwards.  With any caches and any server, the call raises if a batch
gets more or fewer vectors than it has texts. -/
theorem embed_batches (sha256 : String → String) (s : LlmSettings) (T : Set String) (texts : List String)
    (useCache : Bool) (x : EmbedOutside) (w : EmbedRun) (hsize : 0 < s.embeddingBatchSize)
    (hsha : NoEmbedCollision sha256 (fun _ => s) fun _ => T) (htexts : ∀ t ∈ texts, t ∈ T)
    (hbetween : ∀ n v, v.All (vectorKnown sha256 s x.up T) →
    (x.between n v).All (vectorKnown sha256 s x.up T)) (hw : w.caches.All (vectorKnown sha256 s x.up T)) :
    ((∀ n r, x.serve n r = .ok (r.input.map (x.up.vector r.model r.dimensions))) →
        ∃ found batches, EmbedDone sha256 s texts useCache x (vectorKnown sha256 s x.up T) w found batches) ∧
      ∀ (y : EmbedOutside) (v : EmbedRun),
        ∃ answers, ((embed sha256 s texts useCache).exec (embedReply y) v).2.answered =
          v.answered ++ answers ∧
          ((∃ r vs, (r, Except.ok vs) ∈ answers ∧ vs.length ≠ r.input.length) →
            ∃ e, ((embed sha256 s texts useCache).exec (embedReply y) v).1 = .error e) := by
  refine ⟨embed_done hbetween hw (cacheRight_of_noCollision hsha htexts) hsize, ?_⟩
  intro y v
  obtain ⟨answers, hanswers, hstrict⟩ := embed_strict sha256 texts useCache y hsize v
  refine ⟨answers, hanswers, ?_⟩
  rintro ⟨r, vs, hmem, hne⟩
  cases hresult : ((embed sha256 s texts useCache).exec (embedReply y) v).1 with
  | error e => exact ⟨e, rfl⟩
  | ok vectors => exact absurd (hstrict vectors hresult r vs hmem) hne

/-- Nobody else uses the caches, and the server gives the vectors of `zeros`. -/
def zerosOutside : EmbedOutside :=
  ⟨0, zeros, fun _ r => .ok (r.input.map (zeros.vector r.model r.dimensions)), fun _ v => v⟩

theorem embed_batches_cold : ∃ found batches,
    EmbedDone textDigests llmDefaults ["hợp đồng", "thử việc", "hợp đồng"] true zerosOutside
    (vectorKnown textDigests llmDefaults zeros {t | t = "hợp đồng" ∨ t = "thử việc"})
      ⟨.cold [], 0, []⟩ found batches := by
  have hdigests : textDigests (embedText llmDefaults "hợp đồng") ≠
      textDigests (embedText llmDefaults "thử việc") := by
    decide +kernel
  refine (embed_batches textDigests llmDefaults {t | t = "hợp đồng" ∨ t = "thử việc"}
    ["hợp đồng", "thử việc", "hợp đồng"] true zerosOutside ⟨.cold [], 0, []⟩ (by decide) ?_ ?_ ?_ ?_).1 ?_
  · rintro _ _ t t' (rfl | rfl) (rfl | rfl) h
    · rfl
    · exact absurd h hdigests
    · exact absurd h.symm hdigests
    · rfl
  · intro t ht
    simp only [List.mem_cons, List.not_mem_nil, or_false] at ht
    rcases ht with rfl | rfl | rfl
    · exact .inl rfl
    · exact .inr rfl
    · exact .inl rfl
  · exact fun _ _ hv => hv
  · exact all_cold trivial
  · exact fun _ _ => rfl

end LegalRag
