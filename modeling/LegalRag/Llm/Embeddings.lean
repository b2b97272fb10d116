import LegalRag.Calls.Contracts
import LegalRag.Llm.Client
import Mathlib.Data.List.Forall2

/-!
# What `embed` returns

As long as the caches have nothing but the vector of a text under its key, `embed` returns the vectors of
its texts, in their order (`embed_follows`).  The places of the results that are still empty are those of
the misses (`EmptyOnly`), and what the others have is right (`Fits`).
-/

namespace LegalRag

open Calls Prog

/-- What is found under the key is this vector, in Redis only if the process may also cache it. -/
structure Known.Finds (K : Known) (key : String) (v : Embedding) : Prop where
  embed : ∀ e, K.embed key e → e = v
  redis : ∀ c, K.redis key c → c = .vector v ∧ K.embed key v

/-- This vector may be cached under the key. -/
structure Known.Takes (K : Known) (key : String) (v : Embedding) : Prop where
  embed : K.embed key v
  redis : K.redis key (.vector v)

/-- The values of the replies when all that is kept is as `K` says. -/
def Found (K : Known) (up : Upstream) (o : LlmOp) (a : o.Resp) : Prop := Replies K up o (.ok a)

/-- The vector that the server gives for a text under the settings. -/
def Upstream.current (up : Upstream) (s : LlmSettings) (text : String) : Embedding :=
  up.vector s.embeddingModel s.embeddingDim text

/-! ### Places -/

section Places

variable {vec : String → Embedding} {texts : List String} {results : List (Option Embedding)}

/-- What is found at the places of the texts is right. -/
def Fits (vec : String → Embedding) : List String → List (Option Embedding) → Prop :=
  List.Forall₂ fun t v => ∀ e ∈ v, e = vec t

/-- Only places of `ms` are empty. -/
def EmptyOnly (ms : List (Nat × String)) (results : List (Option Embedding)) : Prop :=
  ∀ i : Nat, results[i]? = some none → i ∈ ms.map Prod.fst

theorem mem_missesOf {x : Nat × String} :
    x ∈ missesOf texts results ↔ texts[x.1]? = some x.2 ∧ results[x.1]? = some none := by
  obtain ⟨i, t⟩ := x
  unfold missesOf
  simp only [List.mem_map, List.mem_filter, Prod.exists, List.mk_mem_zipIdx_iff_getElem?,
    List.getElem?_zip_eq_some, Option.isNone_iff_eq_none, Prod.mk.injEq]
  constructor
  · rintro ⟨u, v, j, ⟨⟨hu, hv⟩, rfl⟩, rfl, rfl⟩
    exact ⟨hu, hv⟩
  · intro ⟨ht, hv⟩
    exact ⟨t, none, i, ⟨⟨ht, hv⟩, rfl⟩, rfl, rfl⟩

theorem emptyOnly_missesOf (h : texts.length = results.length) :
    EmptyOnly (missesOf texts results) results := by
  intro i hi
  have hlt : i < texts.length := h ▸ (List.getElem?_eq_some_iff.mp hi).1
  exact List.mem_map.mpr ⟨(i, texts[i]), mem_missesOf.mpr ⟨List.getElem?_eq_getElem hlt, hi⟩, rfl⟩

/-- A place is filled. -/
theorem Fits.set (h : Fits vec texts results) {i : Nat} {t : String} (ht : texts[i]? = some t) :
    Fits vec texts (results.set i (some (vec t))) := by
  induction h generalizing i with
  | nil => exact List.Forall₂.nil
  | cons hv hrest ih =>
    cases i with
    | zero =>
      obtain rfl := Option.some.inj ht
      refine List.Forall₂.cons ?_ hrest
      intro e he
      exact (Option.some.inj he).symm
    | succ i => exact List.Forall₂.cons hv (ih ht)

theorem EmptyOnly.set {x : Nat × String} {ms : List (Nat × String)} (h : EmptyOnly (x :: ms) results)
    (v : Embedding) : EmptyOnly ms (results.set x.1 (some v)) := by
  intro i hi
  rw [List.getElem?_set] at hi
  split at hi
  · split at hi <;> simp at hi
  · rename_i hne
    rcases List.mem_cons.mp (h i hi) with heq | hmem
    · exact absurd heq.symm hne
    · exact hmem

/-- All places are filled, in the order of the texts. -/
theorem Fits.filled (h : Fits vec texts results) (hfull : EmptyOnly [] results) :
    results.filterMap id = texts.map vec := by
  induction h with
  | nil => rfl
  | @cons t v ts vs hv _ ih =>
    cases v with
    | none => exact absurd (hfull 0 rfl) List.not_mem_nil
    | some e =>
      obtain rfl := hv e rfl
      have hrest : vs.filterMap id = ts.map vec :=
        ih fun i hi => absurd (hfull (i + 1) hi) List.not_mem_nil
      show vec t :: vs.filterMap id = vec t :: ts.map vec
      rw [hrest]

end Places

/-! ### The program -/

section Program

variable {sha256 : String → String} {up : Upstream} {s : LlmSettings} {K : Known} {useCache : Bool}
    {texts : List String}

private theorem lookupVector_follows {key : String} {v : Embedding} (h : K.Finds key v) :
    (lookupVector key).Follows (Found K up) (Writes K) fun r => ∀ e ∈ r, e = v := by
  unfold lookupVector
  refine follows_bind ((follows_perform trivial).mono fun found hfound => ?_)
  obtain ⟨_, ⟨⟩, hfound⟩ := hfound
  cases found with
  | some e =>
    intro e' he'
    obtain rfl := Option.some.inj he'
    exact h.embed e (hfound e rfl)
  | none =>
    refine follows_bind ((follows_perform trivial).mono fun found hfound => ?_)
    obtain ⟨_, ⟨⟩, hfound⟩ := hfound
    cases found with
    | none => exact nofun
    | some c =>
      obtain ⟨rfl, hembed⟩ := h.redis c (hfound c rfl)
      have hwrite : Writes K (.lruEmbedSet key v) := hembed
      refine follows_bind ((follows_perform (I := LlmCalls) hwrite).mono fun _ _ => ?_)
      intro e' he'
      exact (Option.some.inj he').symm

/-- As far as the caches are used, they have the vectors of the texts, and take those that are fetched. -/
structure CacheRight (sha256 : String → String) (s : LlmSettings) (up : Upstream) (K : Known)
    (useCache : Bool) (texts : List String) : Prop where
  finds : useCache = true → ∀ t ∈ texts, K.Finds (embedKey sha256 s.embeddingModel t) (up.current s t)
  takes : useCache = true → 0 < s.embeddingBatchSize → ∀ t ∈ texts,
    K.Takes (embedKey sha256 s.embeddingModel t) (up.current s t)

private theorem lookupAll_follows (h : CacheRight sha256 s up K useCache texts) :
    (lookupAll sha256 s useCache texts).Follows (Found K up) (Writes K) (Fits (up.current s) texts) := by
  induction texts with
  | nil => exact List.Forall₂.nil
  | cons t ts ih =>
    have hrest : CacheRight sha256 s up K useCache ts :=
      ⟨fun hc u hu => h.finds hc u (List.mem_cons_of_mem t hu),
        fun hc hs u hu => h.takes hc hs u (List.mem_cons_of_mem t hu)⟩
    have hnext : ∀ v : Option Embedding, (∀ e ∈ v, e = up.current s t) →
        (lookupAll sha256 s useCache ts >>= fun vs => pure (v :: vs)).Follows (Found K up) (Writes K)
          (Fits (up.current s) (t :: ts)) := by
      intro v hv
      exact follows_bind ((ih hrest).mono fun vs hvs => List.Forall₂.cons hv hvs)
    unfold lookupAll
    by_cases hc : useCache = true
    · simp only [if_pos hc]
      exact follows_bind ((lookupVector_follows (h.finds hc t (List.mem_cons_self ..))).mono hnext)
    · simp only [if_neg hc]
      exact hnext none nofun

/-- The vectors of a batch are put into their places. -/
private theorem storeBatch_follows (h : CacheRight sha256 s up K useCache texts)
    (hsize : 0 < s.embeddingBatchSize) {rest : List (Nat × String)} {batch : List (Nat × String)}
    (hbatch : ∀ x ∈ batch, texts[x.1]? = some x.2) {results : List (Option Embedding)}
    (hfits : Fits (up.current s) texts results) (hempty : EmptyOnly (batch ++ rest) results) :
    (storeBatch sha256 s useCache batch (batch.map fun x => up.current s x.2) results).Follows
      (Found K up) (Writes K) fun res => Fits (up.current s) texts res ∧ EmptyOnly rest res := by
  induction batch generalizing results with
  | nil => exact ⟨hfits, hempty⟩
  | cons x batch ih =>
    have hx : texts[x.1]? = some x.2 := hbatch x (List.mem_cons_self ..)
    have hnext := ih (fun y hy => hbatch y (List.mem_cons_of_mem x hy)) (hfits.set hx)
      (hempty.set (up.current s x.2))
    unfold storeBatch
    by_cases hc : useCache = true
    · have htakes := h.takes hc hsize x.2 (List.mem_of_getElem? hx)
      have hlru : Writes K (.lruEmbedSet (embedKey sha256 s.embeddingModel x.2) (up.current s x.2)) :=
        htakes.embed
      have hredis : Writes K (.cacheSet (embedKey sha256 s.embeddingModel x.2) (.vector (up.current s x.2))
          s.cacheTtlEmbeddingS) := htakes.redis
      simp only [if_pos hc]
      refine follows_bind ((follows_perform (I := LlmCalls) hlru).mono fun _ _ => ?_)
      exact follows_bind ((follows_perform (I := LlmCalls) hredis).mono fun _ _ => hnext)
    · simp only [if_neg hc]
      exact hnext

private theorem fetchBatches_follows (h : CacheRight sha256 s up K useCache texts)
    (hsize : 0 < s.embeddingBatchSize) {batches : List (List (Nat × String))}
    (hbatches : ∀ x ∈ batches.flatten, texts[x.1]? = some x.2) {results : List (Option Embedding)}
    (hfits : Fits (up.current s) texts results) (hempty : EmptyOnly batches.flatten results) :
    (fetchBatches sha256 s useCache batches results).Follows (Found K up) (Writes K)
      fun res => Fits (up.current s) texts res ∧ EmptyOnly [] res := by
  induction batches generalizing results with
  | nil => exact ⟨hfits, hempty⟩
  | cons batch batches ih =>
    refine follows_bind ((follows_perform trivial).mono fun vectors hvectors => ?_)
    have hv : vectors = batch.map fun x => up.current s x.2 := by
      have hanswer : .ok vectors = up.embed ⟨s.embeddingModel, batch.map (·.2), s.embeddingDim⟩ :=
        hvectors
      unfold Upstream.embed at hanswer
      split at hanswer
      · cases hanswer
      · obtain rfl := Except.ok.inj hanswer
        rw [List.map_map]
        rfl
    subst hv
    have hfirst : ∀ x ∈ batch, texts[x.1]? = some x.2 :=
      fun x hx => hbatches x (List.mem_append_left _ hx)
    refine follows_bind ((storeBatch_follows h hsize hfirst hfits hempty).mono fun res hres => ?_)
    exact ih (fun x hx => hbatches x (List.mem_append_right _ hx)) hres.1 hres.2

/-- The vectors of the texts, in their order. -/
theorem embed_follows (h : CacheRight sha256 s up K useCache texts) :
    (embed sha256 s texts useCache).Follows (Found K up) (Writes K) fun vs =>
    vs = texts.map (up.current s) := by
  unfold embed
  by_cases hnil : texts = []
  · subst hnil
    rfl
  rw [if_neg hnil]
  refine follows_bind ((lookupAll_follows h).mono fun results hfits => ?_)
  have hempty := emptyOnly_missesOf hfits.length_eq
  by_cases hmisses : missesOf texts results = []
  · rw [if_pos hmisses]
    rw [hmisses] at hempty
    exact hfits.filled hempty
  rw [if_neg hmisses]
  by_cases hsize : s.embeddingBatchSize = 0
  · rw [if_pos hsize]
    trivial
  rw [if_neg hsize]
  have hpos : 0 < s.embeddingBatchSize := Nat.pos_of_ne_zero hsize
  have hflatten := Redis.flatten_slices hpos (missesOf texts results)
  refine follows_bind ((fetchBatches_follows h hpos ?_ hfits ?_).mono fun res hres =>
    hres.1.filled hres.2)
  · rw [hflatten]
    exact fun x hx => (mem_missesOf.mp hx).1
  · rw [hflatten]
    exact hempty

end Program

/-! ### One text -/

section One

variable {sha256 : String → String} {up : Upstream} {s : LlmSettings} {K : Known} {F : Prop} {text : String}

/-- What `embed` returns for a text if nothing goes wrong. -/
def Upstream.embedOne (up : Upstream) (s : LlmSettings) (text : String) : Except LlmErr (List Embedding) :=
  if s.embeddingBatchSize = 0 then .error ⟨"range() arg 3 must not be zero"⟩ else .ok [up.current s text]

/-- The vector of a text is looked up; it is only there if batches have a size. -/
private theorem lookupVector_accords {key : String} {v : Embedding} (hfinds : K.Finds key v)
    (hsize : ∀ e, K.embed key e → 0 < s.embeddingBatchSize) :
    (lookupVector key).Accords (MayFail F (Replies K up)) (Writes K)
      (OrFails F fun r => r = .ok none ∨ r = .ok (some v) ∧ 0 < s.embeddingBatchSize) := by
  unfold lookupVector
  refine accords_call_mayFail trivial fun r hr => ?_
  obtain ⟨found, rfl, hfound⟩ := hr
  cases found with
  | some e =>
    obtain rfl := hfinds.embed e (hfound e rfl)
    exact Or.inl (Or.inr ⟨rfl, hsize e (hfound e rfl)⟩)
  | none =>
    refine accords_call_mayFail trivial fun r hr => ?_
    obtain ⟨found, rfl, hfound⟩ := hr
    cases found with
    | none => exact Or.inl (Or.inl rfl)
    | some c =>
      obtain ⟨rfl, hembed⟩ := hfinds.redis c (hfound c rfl)
      refine accords_call_mayFail hembed fun r hr => ?_
      obtain rfl : r = .ok () := hr
      exact Or.inl (Or.inr ⟨rfl, hsize v hembed⟩)

/-- As long as the server gives vectors, a text has its vector. -/
theorem embed_one_accords (hup : ∀ r, up.embedFailure r = none)
    (hfinds : K.Finds (embedKey sha256 s.embeddingModel text) (up.current s text))
    (hsize : ∀ e, K.embed (embedKey sha256 s.embeddingModel text) e → 0 < s.embeddingBatchSize)
    (htakes : 0 < s.embeddingBatchSize →
      K.Takes (embedKey sha256 s.embeddingModel text) (up.current s text)) :
    (embed sha256 s [text] true).Accords (MayFail F (Replies K up)) (Writes K)
      (OrFails F fun r => r = up.embedOne s text) := by
  unfold embed Upstream.embedOne
  rw [if_neg (List.cons_ne_nil text [])]
  have hlookup : (lookupAll sha256 s true [text]).Accords (MayFail F (Replies K up)) (Writes K)
      (OrFails F fun r => r = .ok [none] ∨ r = .ok [some (up.current s text)] ∧
        0 < s.embeddingBatchSize) := by
    refine accords_bind_mayFail (lookupVector_accords hfinds hsize) fun r hr => ?_
    rcases hr with rfl | ⟨rfl, hpos⟩
    · exact Or.inl (Or.inl rfl)
    · exact Or.inl (Or.inr ⟨rfl, hpos⟩)
  refine accords_bind_mayFail hlookup fun r hr => ?_
  rcases hr with rfl | ⟨rfl, hpos⟩
  · show (if s.embeddingBatchSize = 0 then _ else _ : Llm (List Embedding)).Accords _ _ _
    by_cases hzero : s.embeddingBatchSize = 0
    · rw [if_pos hzero, if_pos hzero]
      exact Or.inl rfl
    · have hpos : 0 < s.embeddingBatchSize := Nat.pos_of_ne_zero hzero
      rw [if_neg hzero, if_neg hzero]
      have hfetch : (fetchBatches sha256 s true [[(0, text)]] [none]).Accords
        (MayFail F (Replies K up)) (Writes K) (OrFails F fun r => r = .ok [some (up.current s text)]) := by
        refine accords_call_mayFail trivial fun r hr => ?_
        obtain rfl : r = .ok [up.current s text] := by
          have hanswer : r = up.embed ⟨s.embeddingModel, [text], s.embeddingDim⟩ := hr
          rw [hanswer]
          unfold Upstream.embed
          rw [hup]
          rfl
        refine accords_bind_mayFail (m := fun r => r = .ok [some (up.current s text)]) ?_ fun r hr => ?_
        · refine accords_call_mayFail (htakes hpos).embed fun r hr => ?_
          obtain rfl : r = .ok () := hr
          refine accords_call_mayFail (htakes hpos).redis fun r hr => ?_
          obtain rfl : r = .ok () := hr
          exact Or.inl rfl
        · subst hr
          exact Or.inl rfl
      have hmisses : missesOf [text] [none] = [(0, text)] := rfl
      rw [hmisses, Redis.slices_singleton hpos]
      refine accords_bind_mayFail hfetch fun r hr => ?_
      subst hr
      exact Or.inl rfl
  · rw [if_neg (Nat.ne_of_gt hpos)]
    exact Or.inl rfl

end One

end LegalRag
