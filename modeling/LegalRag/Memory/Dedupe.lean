import LegalRag.Memory.SavePhases
import LegalRag.Calls.Service

/-!
# Facts are saved once

`save_fact` searches for a similar fact and upserts much later.  If no fact is looked up while a similar
one of the same user and key is between its search and its upsert, then no two facts of one user and key
are similar (`facts_distinct`).
-/

namespace LegalRag

open Calls Prog Service

abbrev FactState := State FactCalls LlmErr FactWorld Uuid Nat

abbrev FactLabel := Label LlmErr Uuid FactEnv

/-- Two facts of one user and key are similar. -/
def SimilarFacts (similarity : Embedding → Embedding → ℚ) (a b : FactQuery) : Prop :=
  a.userId = b.userId ∧ a.key = b.key ∧ dedupeThreshold ≤ similarity a.vector b.vector

instance (similarity : Embedding → Embedding → ℚ) (a b : FactQuery) :
    Decidable (SimilarFacts similarity a b) :=
  inferInstanceAs (Decidable (_ ∧ _ ∧ _))

/-- No two points of the collection are similar facts. -/
def FactsDistinct (similarity : Embedding → Embedding → ℚ) (points : List MemoryPoint) : Prop :=
  points.Pairwise fun p q => ¬ SimilarFacts similarity p.query q.query

/-- The collection has no fact like the one that is looked up. -/
def Missing (similarity : Embedding → Embedding → ℚ) (q : FactQuery) (points : List MemoryPoint) : Prop :=
  ∀ p ∈ points, ¬ SimilarFacts similarity q p.query

instance (similarity : Embedding → Embedding → ℚ) (q : FactQuery) (points : List MemoryPoint) :
    Decidable (Missing similarity q points) := inferInstanceAs (Decidable (∀ p ∈ points, _))

/-- The process that looks a fact up by this step, and the query. -/
def lookingUp (s : FactState) : FactLabel → Option (Nat × FactQuery)
  | .call pid .ok =>
    match s.procs pid with
    | some ⟨_, .call (.search v _ must) _⟩ => (queryOf v must).map fun q => (pid, q)
    | _ => none
  | _ => none

/-- What a process is about to upsert. -/
def savingOf (s : FactState) (pid : Nat) : Option FactQuery := (s.procs pid).bind fun p => pending p.prog

/-- A fact that is looked up and not found is not being saved by another job. -/
def LooksUpAlone (similarity : Embedding → Embedding → ℚ) (s : FactState) (l : FactLabel) : Prop :=
  ∀ pid q, lookingUp s l = some (pid, q) → Missing similarity q s.world.points →
    ∀ pid' q', pid' ≠ pid → savingOf s pid' = some q' → ¬ SimilarFacts similarity q q'

/-! ### The search -/

section Search

variable {similarity : Embedding → Embedding → ℚ}

private theorem holds_all {q : FactQuery} {v : Embedding} {must : List MemoryCondition}
    (hq : queryOf v must = some q) (p : MemoryPoint) :
    must.all (·.holds p) = true ↔ p.userId = q.userId ∧ p.key = q.key := by
  unfold queryOf at hq
  split at hq
  · obtain rfl := Option.some.inj hq
    simp [MemoryCondition.holds]
  · cases hq

/-- A search without a similar hit: there is no similar fact. -/
theorem missing_of_search {q : FactQuery} {v : Embedding} {must : List MemoryCondition}
    (hq : queryOf v must = some q) {points : List MemoryPoint}
    (h : ¬ ((searchMemory similarity points v 1 must).head?.any fun h => dedupeThreshold ≤ h.score) =
    true) : Missing similarity q points := by
  intro p hp hsimilar
  obtain ⟨huser, hkey, hscore⟩ := hsimilar
  have hvector : q.vector = v := by
    unfold queryOf at hq
    split at hq
    · obtain rfl := Option.some.inj hq
      rfl
    · cases hq
  have hpass : must.all (·.holds p) = true := (holds_all hq p).mpr ⟨huser.symm, hkey.symm⟩
  have hmem : (⟨p.id, similarity v p.vector⟩ : ScoredId) ∈
      ((points.filter fun p => must.all (·.holds p)).map fun p => ⟨p.id, similarity v p.vector⟩) :=
    List.mem_map.mpr ⟨p, List.mem_filter.mpr ⟨hp, hpass⟩, rfl⟩
  apply h
  unfold searchMemory
  rw [List.head?_take, if_neg (by decide)]
  cases hhead : (Ranked.ranked ScoredId.score
      ((points.filter fun p => must.all (·.holds p)).map fun p => ⟨p.id, similarity v p.vector⟩)).head?
        with
  | none =>
    rw [List.head?_eq_none_iff] at hhead
    have hranked : _ ∈ Ranked.ranked ScoredId.score _ := Ranked.mem_ranked.mpr hmem
    rw [hhead] at hranked
    exact absurd hranked List.not_mem_nil
  | some a =>
    have hle := Ranked.score_le_head hhead hmem
    rw [Option.any_some, decide_eq_true_iff]
    rw [hvector] at hscore
    exact le_trans hscore hle

end Search

/-! ### The invariant -/

section Invariant

variable {similarity : Embedding → Embedding → ℚ} {parse : FactParsers} {c : LlmSettings}
    {s s' : FactState} {l : FactLabel}

/-- Every job knows that the fact it is saving is missing; no two jobs are saving similar facts; the
collection has no two similar facts. -/
structure DedupeInv (similarity : Embedding → Embedding → ℚ) (s : FactState) : Prop where
  phases : s.Obeys (fun _ => saveProtocol) (fun _ => SaveEnds)
    fun _ _ φ w => ∀ q ∈ φ.query, Missing similarity q w.points
  apart : ∀ pid pid' q q', pid ≠ pid' → savingOf s pid = some q → savingOf s pid' = some q' →
    ¬ SimilarFacts similarity q q'
  points : FactsDistinct similarity s.world.points

private theorem SimilarFacts.symm (hsym : ∀ a b, similarity a b = similarity b a) {a b : FactQuery}
    (h : SimilarFacts similarity a b) : SimilarFacts similarity b a := by
  obtain ⟨huser, hkey, hscore⟩ := h
  refine ⟨huser.symm, hkey.symm, ?_⟩
  rw [hsym]
  exact hscore

/-- Only an upsert changes the collection. -/
theorem points_reply (pid : Nat) (o : FactOp) (w : FactWorld) :
    (factReply similarity pid o w).2.points = w.points ∨
    ∃ p, o = .upsert p ∧ (factReply similarity pid o w).2.points = upserted p w.points := by
  cases o with
  | upsert p => exact Or.inr ⟨p, rfl, rfl⟩
  | recentMessages convId n => exact Or.inl rfl
  | getConversation convId => exact Or.inl rfl
  | complete c => exact Or.inl rfl
  | embed texts => exact Or.inl rfl
  | search v limit must => exact Or.inl rfl
  | uuid4 => exact Or.inl rfl
  | addFact f => exact Or.inl rfl
  | commit => exact Or.inl rfl
  | rollback => exact Or.inl rfl

private theorem points_env (e : FactEnv) (w : FactWorld) : (e.step w).points = w.points := by
  cases e with
  | chat conversations messages => rfl
  | servers complete embed => rfl

private theorem missing_upserted {q : FactQuery} {p : MemoryPoint} {points : List MemoryPoint}
    (h : Missing similarity q points)
    (hp : ¬ SimilarFacts similarity q p.query) : Missing similarity q (upserted p points) := by
  intro x hx
  rcases List.mem_append.mp hx with hx | hx
  · exact h x (List.mem_of_mem_filter hx)
  · obtain rfl := List.mem_singleton.mp hx
    exact hp

/-- How a step changes the collection: not at all, or by an upsert that was pending. -/
private theorem points_step (h : (factService similarity parse c).step s l = some s') :
    s'.world.points = s.world.points ∨ ∃ pid p, l.pid = some pid ∧ savingOf s pid = some p.query ∧
      s'.world.points = upserted p s.world.points := by
  rcases step_cases h with ⟨pid, r, rfl, -, rfl⟩ | ⟨pid, out, r, o, k, rfl, hproc, rfl⟩ | ⟨e, w, rfl, hw, rfl⟩
  · exact Or.inl rfl
  · rw [resume_world]
    rcases Outcome.world_eq ((factService similarity parse c).handle pid r) o s.world out with hw | hw
    · rw [hw]
      exact Or.inl rfl
    · rw [hw]
      rcases @points_reply similarity pid o s.world with heq | ⟨p, rfl, heq⟩
      · exact Or.inl heq
      · refine Or.inr ⟨pid, p, rfl, ?_, heq⟩
        unfold savingOf
        rw [hproc]
        rfl
  · obtain rfl := Option.some.inj hw
    exact Or.inl (points_env e s.world)

/-- No other call than a search begins a fact. -/
private theorem next_query {φ : SavePhase} {o : FactOp} {a : o.Resp} {q : FactQuery}
    (ha : saveProtocol.allows φ o) (hsearch : ∀ v limit must, o ≠ .search v limit must)
    (h : (saveProtocol.next φ o a).query = some q) : φ.query = some q := by
  cases o with
  | search v limit must => exact absurd rfl (hsearch v limit must)
  | uuid4 => cases φ <;> first | exact ha.elim | exact h
  | addFact f => cases φ <;> first | exact ha.elim | exact h
  | commit => cases φ <;> first | exact ha.elim | exact h
  | upsert p => cases φ <;> first | exact ha.elim | cases h
  | recentMessages convId n => cases φ <;> first | exact ha.elim | cases h
  | getConversation convId => cases φ <;> first | exact ha.elim | cases h
  | complete c => cases φ <;> first | exact ha.elim | cases h
  | embed texts => cases φ <;> first | exact ha.elim | cases h
  | rollback => cases φ <;> first | exact ha.elim | cases h

/-- The search that begins a fact. -/
private theorem pending_search {pid : Nat} {out : Outcome LlmErr} {r : Uuid} {v : Embedding} {limit : Nat}
    {must : List MemoryCondition} {k : Except LlmErr (List ScoredId) → FactProg Nat} {φ : SavePhase}
    {hits : List ScoredId} {q : FactQuery} (hproc : s.procs pid = some ⟨r, .call (.search v limit must) k⟩)
    (hrep : out.reply ((factService similarity parse c).handle pid r) (.search v limit must) s.world =
    some (.ok hits)) (ha : saveProtocol.allows φ (.search v limit must))
    (hq : (saveProtocol.next φ (.search v limit must) hits).query = some q) :
    lookingUp s (.call pid out) = some (pid, q) ∧ Missing similarity q s.world.points := by
  obtain ⟨text, vectors, rfl⟩ : ∃ text vectors, φ = .embedded text vectors := by
    cases φ with
    | embedded text vectors => exact ⟨text, vectors, rfl⟩
    | free => exact ha.elim
    | missed text q => exact ha.elim
    | named text q id => exact ha.elim
    | inserted text q f => exact ha.elim
    | committed text q f => exact ha.elim
    | broken => exact ha.elim
  obtain ⟨rfl, -, hquery⟩ := ha
  obtain ⟨q', hq'⟩ := Option.isSome_iff_exists.mp hquery
  have hout : out = .ok ∧ hits = searchMemory similarity s.world.points v 1 must := by
    cases out with
    | ok => exact ⟨rfl, (Except.ok.inj (Option.some.inj hrep)).symm⟩
    | raised e applied => cases hrep
    | crashed applied => cases hrep
  obtain ⟨rfl, rfl⟩ := hout
  change SavePhase.query (if _ then _ else ((queryOf v must).map (SavePhase.missed text)).getD .free) =
    some q at hq
  split at hq
  · cases hq
  · rename_i hmiss
    rw [hq'] at hq
    obtain rfl := Option.some.inj hq
    refine ⟨?_, missing_of_search hq' hmiss⟩
    simp only [lookingUp, hproc, hq', Option.map_some]

/-- A job starts to save a fact only by a search that has not found a similar one. -/
private theorem saving_step (hi : DedupeInv similarity s)
    (h : (factService similarity parse c).step s l = some s') {pid : Nat} {q : FactQuery}
    (hq : savingOf s' pid = some q) :
    savingOf s pid = some q ∨ lookingUp s l = some (pid, q) ∧ Missing similarity q s.world.points := by
  by_cases hpid : l.pid = some pid
  · rcases step_cases h with ⟨pid, r, rfl, -, rfl⟩ | ⟨pid, out, r, o, k, rfl, hproc, rfl⟩ |
      ⟨e, w, rfl, hw, rfl⟩
    · -- a job that begins has not decided to save anything
      obtain rfl := Option.some.inj hpid
      have hstart : pending ((factService similarity parse c).program r) = some q :=
        by simpa [savingOf] using hq
      change pending (extractFacts parse c r) = some q at hstart
      rw [pending_eq (extractFacts_obeys parse c r)] at hstart
      cases hstart
    · obtain rfl := Option.some.inj hpid
      obtain ⟨φ, ⟨ha, hok, herr⟩, -⟩ := hi.phases pid _ hproc
      have hbefore : savingOf s pid = φ.query := by
        unfold savingOf
        rw [hproc]
        exact pending_eq ⟨ha, hok, herr⟩
      cases hrep : out.reply ((factService similarity parse c).handle pid r) o s.world with
      | none => simp [savingOf, resume, hrep] at hq
      | some rep =>
        have hafter : pending (k rep) = some q := by simpa [savingOf, resume, hrep] using hq
        cases rep with
        | error e =>
          rw [pending_eq (herr e)] at hafter
          cases hafter
        | ok a =>
          rw [pending_eq (hok a trivial)] at hafter
          by_cases hsearch : ∃ v limit must, o = .search v limit must
          · obtain ⟨v, limit, must, rfl⟩ := hsearch
            exact Or.inr (pending_search hproc hrep ha hafter)
          · left
            rw [hbefore]
            exact next_query ha (fun v limit must heq => hsearch ⟨v, limit, must, heq⟩) hafter
    · cases hpid
  · left
    unfold savingOf at hq ⊢
    rw [← hq, step_procs hpid h]

/-- What a job knows of the collection stays true. -/
theorem phases_step (hi : DedupeInv similarity s) (h : (factService similarity parse c).step s l = some s') :
    s'.Obeys (fun _ => saveProtocol) (fun _ => SaveEnds) fun _ _ φ w =>
    ∀ q ∈ φ.query, Missing similarity q w.points := by
  refine obeys_step ?_ ?_ ?_ hi.phases h
  · intro pid r w
    refine ⟨.free, extractFacts_obeys parse c r, ?_⟩
    intro q hq
    cases hq
  · intro pid r o k out φ rep hl hproc ha hfits hrep
    refine ⟨fun _ _ => trivial, ?_⟩
    intro q hq
    cases rep with
    | error e => cases hq
    | ok a =>
      by_cases hupsert : ∃ p, o = .upsert p
      · -- after the upsert the job is free
        obtain ⟨p, rfl⟩ := hupsert
        cases φ <;> first | exact ha.elim | cases hq
      · have hpoints : (out.world ((factService similarity parse c).handle pid r) o s.world).points =
            s.world.points := by
          rcases Outcome.world_eq ((factService similarity parse c).handle pid r) o s.world out with hw | hw
          · rw [hw]
          · rw [hw]
            rcases @points_reply similarity pid o s.world with hsame | ⟨p, heq, -⟩
            · exact hsame
            · exact absurd ⟨p, heq⟩ hupsert
        rw [hpoints]
        by_cases hsearch : ∃ v limit must, o = .search v limit must
        · obtain ⟨v, limit, must, rfl⟩ := hsearch
          exact (pending_search hproc hrep ha hq).2
        · have hne : ∀ v limit must, o ≠ .search v limit must :=
            fun v limit must heq => hsearch ⟨v, limit, must, heq⟩
          exact hfits q (next_query ha hne hq)
  · intro pid p φ hpid hproc hobeys hfits q hq
    rcases points_step h with hsame | ⟨pid', x, hl, hpending, hpoints⟩
    · rw [hsame]
      exact hfits q hq
    · rw [hpoints]
      refine missing_upserted (hfits q hq) (hi.apart pid pid' q x.query ?_ ?_ hpending)
      · rintro rfl
        exact hpid hl
      · unfold savingOf
        rw [hproc]
        exact (pending_eq hobeys).trans hq

/-- A step in which no fact is looked up while a similar one is being saved keeps the invariant. -/
private theorem DedupeInv.step (hsym : ∀ a b, similarity a b = similarity b a) (hi : DedupeInv similarity s)
    (hl : LooksUpAlone similarity s l) (h : (factService similarity parse c).step s l = some s') :
    DedupeInv similarity s' := by
  refine ⟨phases_step hi h, ?_, ?_⟩
  · intro pid pid' q q' hne hq hq' hsimilar
    rcases saving_step hi h hq with hold | ⟨hlook, hmissing⟩
    · rcases saving_step hi h hq' with hold' | ⟨hlook', hmissing'⟩
      · exact hi.apart pid pid' q q' hne hold hold' hsimilar
      · exact hl pid' q' hlook' hmissing' pid q hne hold (hsimilar.symm hsym)
    · rcases saving_step hi h hq' with hold' | ⟨hlook', hmissing'⟩
      · exact hl pid q hlook hmissing pid' q' (Ne.symm hne) hold' hsimilar
      · rw [hlook, Option.some.injEq, Prod.mk.injEq] at hlook'
        exact hne hlook'.1
  · rcases points_step h with hsame | ⟨pid, x, hpid, hpending, hpoints⟩
    · rw [hsame]
      exact hi.points
    · have hmissing : Missing similarity x.query s.world.points := by
        unfold savingOf at hpending
        obtain ⟨p, hproc, hx⟩ := Option.bind_eq_some_iff.mp hpending
        obtain ⟨φ, hobeys, hfits⟩ := hi.phases pid p hproc
        exact hfits x.query ((pending_eq hobeys).symm.trans hx)
      rw [hpoints]
      refine List.pairwise_append.mpr ⟨hi.points.sublist List.filter_sublist, List.pairwise_singleton _ _, ?_⟩
      intro p hp y hy hsimilar
      obtain rfl := List.mem_singleton.mp hy
      exact hmissing p (List.mem_of_mem_filter hp) (hsimilar.symm hsym)

end Invariant

/-- If no fact that is looked up and not found is being saved by another job at the time, no two facts of
one user and key become similar. -/
theorem facts_distinct (similarity : Embedding → Embedding → ℚ)
    (hsym : ∀ a b, similarity a b = similarity b a) (parse : FactParsers) (c : LlmSettings)
    {w : FactWorld} (hw : FactsDistinct similarity w.points) {ls : List FactLabel} {t : FactState}
    (hmeets : (factService similarity parse c).Meets (LooksUpAlone similarity) (idle w) ls)
    (hrun : (factService similarity parse c).run (idle w) ls = some t) :
    FactsDistinct similarity t.world.points := by
  have hidle : DedupeInv similarity (idle w : FactState) := by
    refine ⟨idle_obeys _ _ _ w, ?_, hw⟩
    intro pid pid' q q' _ hq
    cases hq
  exact (run_induct (fun s l s' hi hl h => hi.step hsym hl h) hidle hmeets hrun).points

/-! ### Two jobs of one conversation -/

/-- The inner product, which is the cosine of vectors of length one. -/
def dot (a b : Embedding) : ℚ := (List.zipWith (· * ·) a b).sum

private theorem dot_comm (a b : Embedding) : dot a b = dot b a := by
  unfold dot
  rw [List.zipWith_comm_of_comm mul_comm]

/-- What the model answers. -/
def roleReply : String := "\x7b\"facts\": [\x7b\"key\": \"user.role\", \"value\": \"luật sư\"\x7d]\x7d"

/-- A parser that knows the answer. -/
def roleParsers : FactParsers where
  loads raw :=
    if raw = roleReply then
      .ok (.dict [("facts", .list [.dict [("key", .str "user.role"), ("value", .str "luật sư")]])])
    else .error ⟨.jsonDecodeError, "Expecting value: line 1 column 1 (char 0)"⟩
  int _ := none
  float _ := none

/-- A conversation with one message. -/
def roleWorld : FactWorld where
  conversations := [⟨7, 1, 2⟩]
  messages := [⟨⟨7, .user, "Tôi là luật sư.", [], none, none⟩, 8, 0⟩]
  userFacts := []
  sessions _ := []
  points := []
  nextUuid := 9
  complete _ := .ok ⟨[some roleReply], .null⟩
  embed texts := .ok (texts.map fun _ => [1, 0])

/-- The condition for the jobs below `n`, as a test. -/
def looksUpAloneBelow (similarity : Embedding → Embedding → ℚ) (n : Nat) (s : FactState)
    (l : FactLabel) : Bool :=
  (lookingUp s l).all fun x => !decide (Missing similarity x.2 s.world.points) ||
    (List.range n).all fun pid => pid = x.1 || (savingOf s pid).all fun q => !decide
      (SimilarFacts similarity x.2 q)

private theorem looksUpAlone_of_below {similarity : Embedding → Embedding → ℚ} {n : Nat} {s : FactState}
    {l : FactLabel} (hs : s.Below n)
    (h : looksUpAloneBelow similarity n s l = true) : LooksUpAlone similarity s l := by
  intro pid q hlook hmissing pid' q' hne hpending
  have hpid : pid' < n := by
    by_contra hge
    unfold savingOf at hpending
    rw [hs pid' (Nat.le_of_not_lt hge)] at hpending
    cases hpending
  unfold looksUpAloneBelow at h
  rw [hlook, Option.all_some, decide_eq_true hmissing, Bool.not_true, Bool.false_or, List.all_eq_true] at h
  have hall := h pid' (List.mem_range.mpr hpid)
  rw [hpending, decide_eq_false hne, Bool.false_or, Option.all_some] at hall
  simpa using hall

/-- One job after the other. -/
def jobsInTurn : List FactLabel :=
  .start 0 7 :: List.replicate 10 (.call 0 .ok) ++ .start 1 7 :: List.replicate 6 (.call 1 .ok)

/-- Both jobs search before one has upserted. -/
def jobsOverlap : List FactLabel :=
  [.start 0 7, .start 1 7] ++ List.replicate 6 (.call 0 .ok) ++ List.replicate 6 (.call 1 .ok) ++
    List.replicate 4 (.call 0 .ok) ++ List.replicate 4 (.call 1 .ok)

theorem facts_distinct_inTurn :
    (factService dot roleParsers llmDefaults).Meets (LooksUpAlone dot) (idle roleWorld) jobsInTurn ∧
      ∀ t, (factService dot roleParsers llmDefaults).run (idle roleWorld) jobsInTurn = some t →
        FactsDistinct dot t.world.points := by
  have hmeets : (factService dot roleParsers llmDefaults).Meets (LooksUpAlone dot)
      (idle roleWorld) jobsInTurn := by
    refine meets_of_below 2 _ (fun _ _ => looksUpAlone_of_below) (idle_below 2 roleWorld) ?_
    decide +kernel
  exact ⟨hmeets, fun t ht => facts_distinct dot dot_comm roleParsers llmDefaults
    (w := roleWorld) List.Pairwise.nil hmeets ht⟩

/-- Jobs that overlap can save one fact twice. -/
theorem not_always_distinct :
    ¬ ∀ (similarity : Embedding → Embedding → ℚ) (parse : FactParsers)
      (c : LlmSettings) (w : FactWorld) (ls : List FactLabel) (t : FactState),
      (∀ a b, similarity a b = similarity b a) →
        FactsDistinct similarity w.points → (factService similarity parse c).run (idle w) ls = some t →
          FactsDistinct similarity t.world.points := by
  intro h
  have hpoints : ((factService dot roleParsers llmDefaults).run (idle roleWorld) jobsOverlap).map
    (·.world.points) =
      some [⟨9, [1, 0], "1", "2", "user.role", "luật sư", .finite (8 / 10)⟩,
        ⟨10, [1, 0], "1", "2", "user.role", "luật sư", .finite (8 / 10)⟩] := by
    decide +kernel
  obtain ⟨t, ht, hpoints⟩ := Option.map_eq_some_iff.mp hpoints
  have hdistinct := h dot roleParsers llmDefaults roleWorld jobsOverlap t dot_comm List.Pairwise.nil ht
  rw [hpoints] at hdistinct
  have hpair := List.rel_of_pairwise_cons hdistinct (List.mem_singleton_self _)
  exact hpair (by decide +kernel)

end LegalRag
