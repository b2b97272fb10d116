import LegalRag.Db.Documents
import LegalRag.Memory.Dedupe

/-!
# Jobs that are delivered again

A job that stops between the commit of a row and the upsert of its point leaves a row without a point, and
a row has only the first 128 characters of its key.  If neither happens, then any sequence of deliveries,
each interrupted wherever it may be, leaves the rows and the points of a user in agreement
(`linked_of_deliveries`).
-/

namespace LegalRag

open Calls Prog Service

/-! ### Rows and points -/

/-- A row and a point are the same fact. -/
structure SameFact (f : UserFact) (p : MemoryPoint) : Prop where
  id : p.id = f.qdrantPointId
  user : p.userId = toString f.userId
  key : p.key = f.key
  value : p.value = f.value
  confidence : p.confidence = f.confidence

/-- The rows of a user. -/
def factRowsOf (u : Uuid) (rows : List UserFact) : List UserFact := rows.filter (·.userId = u)

/-- The points of a user. -/
def memoryPointsOf (u : Uuid) (points : List MemoryPoint) : List MemoryPoint :=
  points.filter (·.userId = toString u)

/-- No two rows of the user have one key and value, and the point ids match the user's rows and points one
to one, as the same facts. -/
structure FactsLinked (u : Uuid) (rows : List UserFact) (points : List MemoryPoint) : Prop where
  once : ((factRowsOf u rows).map fun f => (f.key, f.value)).Nodup
  rowIds : ((factRowsOf u rows).map (·.qdrantPointId)).Nodup
  pointIds : ((memoryPointsOf u points).map (·.id)).Nodup
  toPoint : ∀ f ∈ factRowsOf u rows, ∃ p ∈ memoryPointsOf u points, SameFact f p
  toRow : ∀ p ∈ memoryPointsOf u points, ∃ f ∈ factRowsOf u rows, SameFact f p

/-- The vectors of the user's points are those of their texts. -/
def VectorsCurrent (u : Uuid) (embed : List String → Except LlmErr (List Embedding))
    (points : List MemoryPoint) : Prop :=
  ∀ p ∈ memoryPointsOf u points, embed [p.key ++ ": " ++ p.value] = .ok [p.vector]

/-- The id belongs to no row and no point. -/
def FreshId (id : Uuid) (rows : List UserFact) (points : List MemoryPoint) : Prop :=
  (∀ f ∈ rows, f.qdrantPointId ≠ id) ∧ ∀ p ∈ points, p.id ≠ id

section Store

variable {u : Uuid} {rows : List UserFact} {points : List MemoryPoint} {f : UserFact} {p : MemoryPoint}

private theorem upserted_of_fresh (h : FreshId p.id rows points) : upserted p points = points ++ [p] := by
  have hall : points.filter (·.id ≠ p.id) = points :=
    List.filter_eq_self.mpr fun x hx => by simpa using h.2 x hx
  unfold upserted
  rw [hall]

private theorem factRowsOf_append (u : Uuid) (rows : List UserFact) (f : UserFact) :
    factRowsOf u (rows ++ [f]) = factRowsOf u rows ++ if f.userId = u then [f] else [] := by
  unfold factRowsOf
  rw [List.filter_append, List.filter_singleton]
  by_cases h : f.userId = u <;> simp [h]

private theorem memoryPointsOf_append (u : Uuid) (points : List MemoryPoint) (p : MemoryPoint) :
    memoryPointsOf u (points ++ [p]) =
      memoryPointsOf u points ++ if p.userId = toString u then [p] else [] := by
  unfold memoryPointsOf
  rw [List.filter_append, List.filter_singleton]
  by_cases h : p.userId = toString u <;> simp [h]

private theorem nodup_map_append {α β : Type} {g : α → β} {l : List α} {a : α} (h : (l.map g).Nodup)
    (ha : ∀ x ∈ l, g x ≠ g a) : ((l ++ [a]).map g).Nodup := by
  rw [List.map_append, List.nodup_append]
  refine ⟨h, List.nodup_singleton _, ?_⟩
  intro x hx y hy
  obtain ⟨b, hb, rfl⟩ := List.mem_map.mp hx
  obtain rfl := List.mem_singleton.mp hy
  exact ha b hb

/-- A fact of which the user has none is added on both sides. -/
private theorem FactsLinked.add (h : FactsLinked u rows points) (hfresh : FreshId f.qdrantPointId rows points)
    (hsame : SameFact f p) (hnew : ∀ g ∈ factRowsOf u rows, f.userId = u →
    ¬ (g.key = f.key ∧ g.value = f.value)) : FactsLinked u (rows ++ [f]) (points ++ [p]) := by
  by_cases huser : f.userId = u
  · have hpuser : p.userId = toString u := huser ▸ hsame.user
    have hrows : factRowsOf u (rows ++ [f]) = factRowsOf u rows ++ [f] :=
      by rw [factRowsOf_append, if_pos huser]
    have hpoints : memoryPointsOf u (points ++ [p]) = memoryPointsOf u points ++ [p] :=
      by rw [memoryPointsOf_append, if_pos hpuser]
    constructor
    · rw [hrows]
      refine nodup_map_append h.once fun g hg heq => ?_
      exact hnew g hg huser ⟨congrArg Prod.fst heq, congrArg Prod.snd heq⟩
    · rw [hrows]
      exact nodup_map_append h.rowIds fun g hg => hfresh.1 g (List.mem_of_mem_filter hg)
    · rw [hpoints]
      refine nodup_map_append h.pointIds fun q hq => ?_
      rw [hsame.id]
      exact hfresh.2 q (List.mem_of_mem_filter hq)
    · intro g hg
      rw [hrows] at hg
      rw [hpoints]
      rcases List.mem_append.mp hg with hg | hg
      · obtain ⟨q, hq, hgq⟩ := h.toPoint g hg
        exact ⟨q, List.mem_append_left _ hq, hgq⟩
      · obtain rfl := List.mem_singleton.mp hg
        exact ⟨p, List.mem_append_right _ (List.mem_singleton_self p), hsame⟩
    · intro q hq
      rw [hpoints] at hq
      rw [hrows]
      rcases List.mem_append.mp hq with hq | hq
      · obtain ⟨g, hg, hgq⟩ := h.toRow q hq
        exact ⟨g, List.mem_append_left _ hg, hgq⟩
      · obtain rfl := List.mem_singleton.mp hq
        exact ⟨f, List.mem_append_right _ (List.mem_singleton_self f), hsame⟩
  · have hpuser : p.userId ≠ toString u := by
      rw [hsame.user]
      exact fun heq => huser (uuid_str_inj heq)
    have hrows : factRowsOf u (rows ++ [f]) = factRowsOf u rows :=
      by rw [factRowsOf_append, if_neg huser, List.append_nil]
    have hpoints : memoryPointsOf u (points ++ [p]) = memoryPointsOf u points :=
      by rw [memoryPointsOf_append, if_neg hpuser, List.append_nil]
    exact ⟨hrows ▸ h.once, hrows ▸ h.rowIds, hpoints ▸ h.pointIds, hrows ▸ hpoints ▸ h.toPoint,
      hrows ▸ hpoints ▸ h.toRow⟩

/-- The rows and points of the user agree, the vectors are current, and no id is used that is still to be
given out. -/
structure StoreRight (u : Uuid) (embed : List String → Except LlmErr (List Embedding)) (nextUuid : Uuid)
    (rows : List UserFact) (points : List MemoryPoint) : Prop where
  linked : FactsLinked u rows points
  vectors : VectorsCurrent u embed points
  rowIds : ∀ f ∈ rows, f.qdrantPointId < nextUuid
  pointIds : ∀ p ∈ points, p.id < nextUuid

/-- What a job knows between its search and its upsert. -/
structure Saving (similarity : Embedding → Embedding → ℚ)
    (embed : List String → Except LlmErr (List Embedding)) (text : String) (q : FactQuery)
    (points : List MemoryPoint) : Prop where
  vector : embed [text] = .ok [q.vector]
  missing : Missing similarity q points

variable {similarity : Embedding → Embedding → ℚ} {embed : List String → Except LlmErr (List Embedding)}
  {n : Uuid} {text : String} {q : FactQuery}

private theorem StoreRight.fresh (h : StoreRight u embed n rows points) : FreshId n rows points :=
  ⟨fun f hf => Nat.ne_of_lt (h.rowIds f hf), fun p hp => Nat.ne_of_lt (h.pointIds p hp)⟩

private theorem StoreRight.mono (h : StoreRight u embed n rows points) :
    StoreRight u embed (n + 1) rows points :=
  ⟨h.linked, h.vectors, fun f hf => Nat.lt_succ_of_lt (h.rowIds f hf),
    fun p hp => Nat.lt_succ_of_lt (h.pointIds p hp)⟩

/-- The row and the point of a fact that was missing. -/
private theorem StoreRight.add (hself : ∀ text v, embed [text] = .ok [v] → dedupeThreshold ≤ similarity v v)
    (h : StoreRight u embed n rows points) (hfresh : FreshId f.qdrantPointId rows points)
    (hid : f.qdrantPointId < n) (hsaving : Saving similarity embed text q points) (hrow : RowOf text q f)
    (hquery : p.query = q) (hpoint : PointOf f p)
    (hkey : p.key.toList.length ≤ 128) : StoreRight u embed n (rows ++ [f]) (upserted p points) := by
  have hfkey : f.key = p.key := by
    rw [hpoint.key, List.take_of_length_le hkey, String.ofList_toList]
  have hqkey : q.key = p.key := by rw [← hquery]; rfl
  have hqvector : q.vector = p.vector := by rw [← hquery]; rfl
  have hsame : SameFact f p := ⟨hpoint.id, hpoint.user, hfkey.symm, hpoint.value, hpoint.confidence⟩
  have htext : text = p.key ++ ": " ++ p.value := by rw [hrow.text, hqkey, hpoint.value]
  rw [upserted_of_fresh (hpoint.id ▸ hfresh)]
  constructor
  · refine h.linked.add hfresh hsame ?_
    -- a fact with this key and value has the same text, and so a similar vector
    intro g hg huser hgf
    obtain ⟨x, hx, hgx⟩ := h.linked.toPoint g hg
    have hxtext : embed [text] = .ok [x.vector] := by
      rw [htext, ← h.vectors x hx, hgx.key, hgx.value, hgf.1, hgf.2, hfkey, hpoint.value]
    have hvector : x.vector = q.vector := by
      have heq := Except.ok.inj (hxtext.symm.trans hsaving.vector)
      exact (List.cons.inj heq).1
    refine hsaving.missing x (List.mem_of_mem_filter hx) ⟨?_, ?_, ?_⟩
    · show q.userId = x.userId
      rw [hgx.user, ← hrow.user, huser]
      have hguser : g.userId = u := by simpa using (List.mem_filter.mp hg).2
      rw [hguser]
    · show q.key = x.key
      rw [hgx.key, hgf.1, hfkey, hqkey]
    · show dedupeThreshold ≤ similarity q.vector x.vector
      rw [hvector]
      exact hself text q.vector hsaving.vector
  · intro x hx
    obtain ⟨hmem, huser⟩ := List.mem_filter.mp hx
    rcases List.mem_append.mp hmem with hmem | hmem
    · exact h.vectors x (List.mem_filter.mpr ⟨hmem, huser⟩)
    · obtain rfl := List.mem_singleton.mp hmem
      rw [← htext, hsaving.vector, hqvector]
  · intro g hg
    rcases List.mem_append.mp hg with hg | hg
    · exact h.rowIds g hg
    · obtain rfl := List.mem_singleton.mp hg
      exact hid
  · intro x hx
    rcases List.mem_append.mp hx with hx | hx
    · exact h.pointIds x hx
    · obtain rfl := List.mem_singleton.mp hx
      rw [hpoint.id]
      exact hid

end Store

/-! ### One delivery -/

/-- The rows and points of the user agree. -/
def FactsSettled (u : Uuid) (w : FactWorld) : Prop := StoreRight u w.embed w.nextUuid w.userFacts w.points

/-- What holds while the job `pid` is in a phase. -/
def PhaseWorld (similarity : Embedding → Embedding → ℚ) (u : Uuid) (pid : Nat) : SavePhase → FactWorld → Prop
  | .free, w => FactsSettled u w ∧ w.sessions pid = []
  | .embedded text vectors, w => FactsSettled u w ∧ w.sessions pid = [] ∧ w.embed [text] = .ok vectors
  | .missed text q, w =>
    FactsSettled u w ∧ w.sessions pid = [] ∧ Saving similarity w.embed text q w.points
  | .named text q id, w =>
    FactsSettled u w ∧ w.sessions pid = [] ∧ Saving similarity w.embed text q w.points ∧
      FreshId id w.userFacts w.points ∧ id < w.nextUuid
  | .inserted text q f, w =>
    FactsSettled u w ∧ w.sessions pid = [f] ∧ Saving similarity w.embed text q w.points ∧
      RowOf text q f ∧ FreshId f.qdrantPointId w.userFacts w.points ∧ f.qdrantPointId < w.nextUuid
  | .committed text q f, w =>
    w.sessions pid = [] ∧ Saving similarity w.embed text q w.points ∧ RowOf text q f ∧
      f.qdrantPointId < w.nextUuid ∧ ∃ rows, w.userFacts = rows ++ [f] ∧
        StoreRight u w.embed w.nextUuid rows w.points ∧ FreshId f.qdrantPointId rows w.points
  | .broken, w => FactsSettled u w

/-- A row that is committed gets its point, and has its whole key: its commit does not fail after it took
effect, and its upsert takes effect. -/
def CallSafe (pid : Nat) (w : FactWorld) (out : Outcome LlmErr) : FactOp → Prop
  | .commit => w.sessions pid = [] ∨ out = .ok ∨ out.applied = false
  | .upsert p => out.applied = true ∧ p.key.toList.length ≤ 128
  | _ => True

section Delivery

variable {similarity : Embedding → Embedding → ℚ} {u : Uuid} {pid : Nat} {w : FactWorld} {φ : SavePhase}
  {o : FactOp} {out : Outcome LlmErr}

/-- Outside the commit of a row, the user's rows and points agree whenever a job stops. -/
private theorem settled_of_phase (hw : PhaseWorld similarity u pid φ w)
    (hφ : ∀ text q f, φ ≠ .committed text q f) : FactsSettled u w := by
  cases φ with
  | committed text q f => exact absurd rfl (hφ text q f)
  | free => exact hw.1
  | embedded text vectors => exact hw.1
  | missed text q => exact hw.1
  | named text q id => exact hw.1
  | inserted text q f => exact hw.1
  | broken => exact hw

/-- The point of the committed row. -/
private theorem settled_upsert (hself : ∀ text v, w.embed [text] = .ok [v] → dedupeThreshold ≤ similarity v v)
    {text : String} {q : FactQuery} {f : UserFact} {p : MemoryPoint}
    (hw : PhaseWorld similarity u pid (.committed text q f) w) (hquery : p.query = q)
    (hpoint : PointOf f p) (hkey : p.key.toList.length ≤ 128) :
    FactsSettled u (factReply similarity pid (.upsert p) w).2 := by
  obtain ⟨-, hsaving, hrow, hid, rows, hrows, hstore, hfresh⟩ := hw
  show StoreRight u w.embed w.nextUuid w.userFacts (upserted p w.points)
  rw [hrows]
  exact hstore.add hself hfresh hid hsaving hrow hquery hpoint hkey

/-- A job that stops at a safe call leaves the user's rows and points in agreement. -/
private theorem settled_stop (hself : ∀ text v, w.embed [text] = .ok [v] → dedupeThreshold ≤ similarity v v)
    (ha : saveProtocol.allows φ o) (hw : PhaseWorld similarity u pid φ w) (hsafe : CallSafe pid w out o)
    (hout : out ≠ .ok) : FactsSettled u (out.world (factReply similarity pid) o w) := by
  by_cases happlied : out.applied = true
  · rw [Outcome.world_of_applied happlied]
    rcases allows_cases ha with ⟨rfl, hreads⟩ | ⟨rfl, rfl⟩ | ⟨text, rfl, rfl⟩ |
      ⟨text, v, must, q, rfl, rfl, hq⟩ | ⟨text, q, rfl, rfl⟩ |
      ⟨text, q, f, rfl, rfl, -⟩ | ⟨text, q, f, rfl, rfl⟩ |
        ⟨text, q, f, p, rfl, rfl, hquery, hpoint⟩ | ⟨rfl, rfl⟩
    · cases o <;> first | exact hw.1 | exact hreads.elim
    · show StoreRight u w.embed w.nextUuid (w.userFacts ++ w.sessions pid) w.points
      rw [hw.2, List.append_nil]
      exact hw.1
    · exact hw.1
    · exact hw.1
    · exact hw.1.mono
    · exact hw.1
    · rcases hsafe with hempty | hok | hnot
      · rw [hw.2.1] at hempty
        cases hempty
      · exact absurd hok hout
      · rw [happlied] at hnot
        cases hnot
    · exact settled_upsert hself hw hquery hpoint hsafe.2
    · exact hw
  · have hnot : out.applied = false := by simpa using happlied
    rw [Outcome.world_of_not_applied hnot]
    refine settled_of_phase hw ?_
    rintro text q f rfl
    cases o <;> first | exact ha.elim | exact happlied hsafe.1

/-- A call that succeeds leads to a state that fits the next phase. -/
private theorem phase_ok (hself : ∀ text v, w.embed [text] = .ok [v] → dedupeThreshold ≤ similarity v v)
    (ha : saveProtocol.allows φ o) (hw : PhaseWorld similarity u pid φ w) (hsafe : CallSafe pid w .ok o)
    {a : o.Resp} (hreply : (factReply similarity pid o w).1 = .ok a) :
    PhaseWorld similarity u pid (saveProtocol.next φ o a) (factReply similarity pid o w).2 := by
  rcases allows_cases ha with ⟨rfl, hreads⟩ | ⟨rfl, rfl⟩ | ⟨text, rfl, rfl⟩ |
    ⟨text, v, must, q, rfl, rfl, hq⟩ | ⟨text, q, rfl, rfl⟩ |
    ⟨text, q, f, rfl, rfl, hrow⟩ | ⟨text, q, f, rfl, rfl⟩ |
      ⟨text, q, f, p, rfl, rfl, hquery, hpoint⟩ | ⟨rfl, rfl⟩
  · cases o <;> first | exact hw | exact hreads.elim
  · refine ⟨?_, Function.update_self ..⟩
    show StoreRight u w.embed w.nextUuid (w.userFacts ++ w.sessions pid) w.points
    rw [hw.2, List.append_nil]
    exact hw.1
  · exact ⟨hw.1, hw.2, hreply⟩
  · obtain ⟨hsettled, hsession, hembed⟩ := hw
    obtain rfl : searchMemory similarity w.points v 1 must = a := Except.ok.inj hreply
    have hqv : q.vector = v := by
      unfold queryOf at hq
      split at hq
      · obtain rfl := Option.some.inj hq
        rfl
      · cases hq
    show PhaseWorld similarity u pid
      (if _ then SavePhase.free else ((queryOf v must).map (SavePhase.missed text)).getD .free) w
    split
    · exact ⟨hsettled, hsession⟩
    · rename_i hmiss
      rw [hq]
      refine ⟨hsettled, hsession, ?_, missing_of_search hq hmiss⟩
      rw [hembed, hqv]
  · obtain ⟨hsettled, hsession, hsaving⟩ := hw
    obtain rfl : w.nextUuid = a := Except.ok.inj hreply
    exact ⟨hsettled.mono, hsession, hsaving, hsettled.fresh, Nat.lt_succ_self _⟩
  · obtain ⟨hsettled, hsession, hsaving, hfresh, hid⟩ := hw
    refine ⟨hsettled, ?_, hsaving, hrow, hfresh, hid⟩
    show Function.update w.sessions pid (w.sessions pid ++ [f]) pid = [f]
    rw [Function.update_self, hsession, List.nil_append]
  · obtain ⟨hsettled, hsession, hsaving, hrow, hfresh, hid⟩ := hw
    refine ⟨Function.update_self .., hsaving, hrow, hid, w.userFacts, ?_, hsettled, hfresh⟩
    show w.userFacts ++ w.sessions pid = w.userFacts ++ [f]
    rw [hsession]
  · exact ⟨settled_upsert hself hw hquery hpoint hsafe.2, hw.1⟩
  · exact hw

/-- A safe call and what the job sees of it. -/
private theorem phase_call (hself : ∀ text v, w.embed [text] = .ok [v] → dedupeThreshold ≤ similarity v v)
    (ha : saveProtocol.allows φ o) (hw : PhaseWorld similarity u pid φ w) (hsafe : CallSafe pid w out o)
    {rep : Except LlmErr o.Resp} (hrep : out.reply (factReply similarity pid) o w = some rep) :
    PhaseWorld similarity u pid (saveProtocol.after φ o rep) (out.world (factReply similarity pid) o w) := by
  cases out with
  | ok =>
    cases rep with
    | ok a => exact phase_ok hself ha hw hsafe (Option.some.inj hrep)
    | error e =>
      have hreply := Option.some.inj hrep
      -- only the model and the embedder answer with exceptions, and these change nothing
      have hsame : (factReply similarity pid o w).2 = w := by
        cases o <;> first | rfl | cases hreply
      show FactsSettled u (factReply similarity pid o w).2
      rw [hsame]
      refine settled_of_phase hw ?_
      rintro text q f rfl
      cases o <;> first | exact ha.elim | cases hreply
  | raised e applied =>
    obtain rfl := Option.some.inj hrep
    exact settled_stop hself ha hw hsafe (fun h => by cases h)
  | crashed applied => cases hrep

end Delivery

/-! ### Deliveries in turn -/

/-- The job of the conversation is delivered again only when the last delivery is over, and what it reads
and what the servers answer stays the same. -/
def InTurn (convId : Uuid) (s : FactState) : FactLabel → Prop
  | .start _ r => r = convId ∧ s.Finished
  | .call .. => True
  | .env _ => False

/-- The call that is made is safe for the rows. -/
def RowsSafe (s : FactState) : FactLabel → Prop
  | .call pid out => ∀ r o k, s.procs pid = some ⟨r, .call o k⟩ → CallSafe pid s.world out o
  | _ => True

/-- No job runs, or one, which is in a phase that fits the world. -/
inductive DeliveryInv (similarity : Embedding → Embedding → ℚ) (u : Uuid) (s : FactState) : Prop where
  | rest (hover : s.Finished) (hw : FactsSettled u s.world)
  | running (pid : Nat) (p : Proc FactCalls LlmErr Uuid Nat) (φ : SavePhase)
      (hproc : s.procs pid = some p) (hobeys : p.prog.Obeys saveProtocol SaveEnds φ)
      (hothers : ∀ q p', q ≠ pid → s.procs q = some p' → ∃ r, p'.prog = .done r)
      (hw : PhaseWorld similarity u pid φ s.world)

section Runs

variable {similarity : Embedding → Embedding → ℚ} {parse : FactParsers} {c : LlmSettings}
  {convId u : Uuid} {s s' : FactState} {l : FactLabel}

private theorem DeliveryInv.settled (hi : DeliveryInv similarity u s) (hover : s.Finished) :
    FactsSettled u s.world := by
  cases hi with
  | rest _ hw => exact hw
  | running pid p φ hproc hobeys hothers hw =>
    obtain ⟨r, hdone⟩ := hover pid p hproc
    rw [hdone] at hobeys
    refine settled_of_phase hw ?_
    rintro text q f rfl
    rcases hobeys with h | ⟨h | ⟨_, _, h⟩, -⟩ <;> cases h

private theorem embed_reply (pid : Nat) (o : FactOp) (w : FactWorld) :
    (factReply similarity pid o w).2.embed = w.embed := by
  cases o <;> rfl

private theorem embed_step (hturn : InTurn convId s l)
    (h : (factService similarity parse c).step s l = some s') : s'.world.embed = s.world.embed := by
  rcases step_cases h with ⟨pid, r, rfl, -, rfl⟩ | ⟨pid, out, r, o, k, rfl, hproc, rfl⟩ | ⟨e, w, rfl, hw, rfl⟩
  · rfl
  · rw [resume_world]
    rcases Outcome.world_eq ((factService similarity parse c).handle pid r) o s.world out with hw | hw
    · rw [hw]
    · rw [hw]
      exact embed_reply pid o s.world
  · exact hturn.elim

private theorem DeliveryInv.step (hself : ∀ text v, s.world.embed [text] = .ok [v] →
    dedupeThreshold ≤ similarity v v)
    (hi : DeliveryInv similarity u s) (hturn : InTurn convId s l) (hsafe : RowsSafe s l)
    (h : (factService similarity parse c).step s l = some s') : DeliveryInv similarity u s' := by
  rcases step_cases h with ⟨pid, r, rfl, -, rfl⟩ | ⟨pid, out, r, o, k, rfl, hproc, rfl⟩ | ⟨e, w, rfl, hw, rfl⟩
  · -- a delivery begins when the others are over
    obtain ⟨-, hover⟩ := hturn
    refine .running pid ⟨r, extractFacts parse c r⟩ .free (State.set_procs_self ..)
      (extractFacts_obeys parse c r) ?_ ?_
    · intro q p' hq hp'
      rw [State.set_procs_of_ne _ _ _ hq] at hp'
      exact hover q p' hp'
    · exact ⟨hi.settled hover, Function.update_self ..⟩
  · cases hi with
    | rest hover hw =>
      obtain ⟨r', hdone⟩ := hover pid _ hproc
      cases hdone
    | running pid' p φ hproc' hobeys hothers hw =>
      obtain rfl : pid = pid' := by
        by_contra hne
        obtain ⟨r', hdone⟩ := hothers pid _ hne hproc
        cases hdone
      obtain rfl : ⟨r, .call o k⟩ = p := Option.some.inj (hproc.symm.trans hproc')
      obtain ⟨ha, hok, herr⟩ := hobeys
      have hcall : CallSafe pid s.world out o := hsafe r o k hproc
      cases hrep : out.reply ((factService similarity parse c).handle pid r) o s.world with
      | none =>
        -- the delivery is cut off at this call
        refine .rest ?_ ?_
        · intro q p hp
          by_cases hq : q = pid
          · subst hq
            simp [resume] at hp
          · refine hothers q p hq ?_
            rw [← hp]
            exact (State.set_procs_of_ne _ _ _ hq).symm
        · rw [resume_world]
          refine settled_stop hself ha hw hcall ?_
          rintro rfl
          cases hrep
      | some rep =>
        refine .running pid ⟨r, k rep⟩ (saveProtocol.after φ o rep) (State.set_procs_self ..) ?_ ?_ ?_
        · cases rep with
          | ok a => exact hok a trivial
          | error e => exact herr e
        · intro q p hq hp
          refine hothers q p hq ?_
          rw [← hp]
          exact (State.set_procs_of_ne _ _ _ hq).symm
        · exact phase_call hself ha hw hcall hrep
  · exact hturn.elim

end Runs

/-- Any number of deliveries of a job in turn, in which every committed row gets its point and no key is
longer than 128 characters, leaves the rows and the points of a user in agreement. -/
theorem linked_of_deliveries (similarity : Embedding → Embedding → ℚ) (parse : FactParsers)
    (c : LlmSettings) (convId u : Uuid) {w : FactWorld}
    (hself : ∀ text v, w.embed [text] = .ok [v] → dedupeThreshold ≤ similarity v v)
    (hw : FactsSettled u w) {ls : List FactLabel} {t : FactState}
    (hmeets : (factService similarity parse c).Meets (fun s l => InTurn convId s l ∧ RowsSafe s l)
    (idle w) ls) (hrun : (factService similarity parse c).run (idle w) ls = some t) (hover : t.Finished) :
    FactsLinked u t.world.userFacts t.world.points := by
  have hall : DeliveryInv similarity u t ∧ t.world.embed = w.embed := by
    have hstep : ∀ s l s', (DeliveryInv similarity u s ∧ s.world.embed = w.embed) →
      (InTurn convId s l ∧ RowsSafe s l) →
        (factService similarity parse c).step s l = some s' → DeliveryInv similarity u s' ∧
        s'.world.embed = w.embed := by
      intro s l s' hi hl h
      obtain ⟨hdelivery, hembed⟩ := hi
      refine ⟨hdelivery.step ?_ hl.1 hl.2 h, (embed_step hl.1 h).trans hembed⟩
      rw [hembed]
      exact hself
    refine run_induct hstep ⟨.rest ?_ hw, rfl⟩ hmeets hrun
    intro pid p hp
    cases hp
  exact (hall.1.settled hover).linked

/-! ### One job delivered twice -/

instance (pid : Nat) (w : FactWorld) (out : Outcome LlmErr) : (o : FactOp) → Decidable (CallSafe pid w out o)
  | .commit => inferInstanceAs (Decidable (_ ∨ _ ∨ _))
  | .upsert _ => inferInstanceAs (Decidable (_ ∧ _))
  | .recentMessages .. | .getConversation _ | .complete _ | .embed _ | .search .. | .uuid4 | .addFact
      _ | .rollback =>
    inferInstanceAs (Decidable True)

/-- The condition on the deliveries, as a test for the jobs below `n`. -/
def inTurnBelow (n : Nat) (convId : Uuid) (s : FactState) : FactLabel → Bool
  | .start _ r => r = convId && (List.range n).all s.isFinished
  | .call .. => true
  | .env _ => false

/-- The condition on the calls, as a test. -/
def rowsSafeTest (s : FactState) : FactLabel → Bool
  | .call pid out =>
    match s.procs pid with
    | some ⟨_, .call o _⟩ => decide (CallSafe pid s.world out o)
    | _ => true
  | _ => true

private theorem inTurn_of_below {n : Nat} {convId : Uuid} {s : FactState} {l : FactLabel} (hs : s.Below n)
    (h : inTurnBelow n convId s l = true) : InTurn convId s l := by
  cases l with
  | start pid r =>
    obtain ⟨hr, hover⟩ := Bool.and_eq_true_iff.mp h
    exact ⟨of_decide_eq_true hr, hs.finished hover⟩
  | call pid out => trivial
  | env e => cases h

private theorem rowsSafe_of_test {s : FactState} {l : FactLabel} (h : rowsSafeTest s l = true) :
    RowsSafe s l := by
  cases l with
  | call pid out =>
    intro r o k hproc
    simpa [rowsSafeTest, hproc] using h
  | start pid r => trivial
  | env e => trivial

/-- The first delivery dies at its search. -/
def diesAtSearch : List FactLabel :=
  .start 0 7 :: List.replicate 5 (.call 0 .ok) ++ [.call 0 (.crashed false), .start 1 7] ++
  List.replicate 10 (.call 1 .ok)

/-- The first delivery dies after it has committed the row. -/
def diesAtUpsert : List FactLabel :=
  .start 0 7 :: List.replicate 9 (.call 0 .ok) ++ [.call 0 (.crashed false), .start 1 7] ++
  List.replicate 10 (.call 1 .ok)

private theorem roleWorld_settled : FactsSettled 1 roleWorld := by
  refine ⟨⟨List.nodup_nil, List.nodup_nil, List.nodup_nil, ?_, ?_⟩, ?_, ?_, ?_⟩
  · intro f hf
    cases hf
  · intro p hp
    cases hp
  · intro p hp
    cases hp
  · intro f hf
    cases hf
  · intro p hp
    cases hp

private theorem roleWorld_self (text : String) (v : Embedding) (h : roleWorld.embed [text] = .ok [v]) :
    dedupeThreshold ≤ dot v v := by
  obtain rfl : [1, 0] = v := (List.cons.inj (Except.ok.inj h)).1
  decide +kernel

theorem linked_of_diesAtSearch :
    (factService dot roleParsers llmDefaults).Meets (fun s l => InTurn 7 s l ∧ RowsSafe s l)
      (idle roleWorld) diesAtSearch ∧
      ∀ t, (factService dot roleParsers llmDefaults).run (idle roleWorld) diesAtSearch = some t →
        t.Finished → FactsLinked 1 t.world.userFacts t.world.points := by
  have hmeets : (factService dot roleParsers llmDefaults).Meets (fun s l => InTurn 7 s l ∧ RowsSafe s l)
    (idle roleWorld) diesAtSearch := by
    refine meets_of_below 2 (fun s l => (inTurnBelow 2 7 s l && rowsSafeTest s l) = true) ?_
      (idle_below 2 roleWorld) ?_
    · intro s l hs h
      obtain ⟨hturn, hsafe⟩ := Bool.and_eq_true_iff.mp h
      exact ⟨inTurn_of_below hs hturn, rowsSafe_of_test hsafe⟩
    · decide +kernel
  exact ⟨hmeets, fun t ht hover => linked_of_deliveries dot roleParsers llmDefaults 7 1 roleWorld_self
    roleWorld_settled hmeets ht hover⟩

/-- A row that was committed without its point is inserted again by the next delivery. -/
theorem not_always_linked :
    ¬ ∀ (similarity : Embedding → Embedding → ℚ) (parse : FactParsers)
      (c : LlmSettings) (convId u : Uuid) (w : FactWorld) (ls : List FactLabel) (t : FactState),
        (∀ text v, w.embed [text] = .ok [v] → dedupeThreshold ≤ similarity v v) → FactsSettled u w →
        (factService similarity parse c).Meets (InTurn convId) (idle w) ls →
        (factService similarity parse c).run (idle w) ls = some t → t.Finished →
        (∃ pid n, t.result pid = some (.ok n)) → FactsLinked u t.world.userFacts t.world.points := by
  intro h
  have hmeets : (factService dot roleParsers llmDefaults).Meets (InTurn 7) (idle roleWorld) diesAtUpsert := by
    refine meets_of_below 2 (fun s l => inTurnBelow 2 7 s l = true) (fun _ _ => inTurn_of_below)
      (idle_below 2 roleWorld) ?_
    decide +kernel
  have hend : ((factService dot roleParsers llmDefaults).run (idle roleWorld) diesAtUpsert).map (fun t =>
      ((factRowsOf 1 t.world.userFacts).map fun f => (f.key, f.value), (List.range 2).all t.isFinished,
        (t.result 1).map fun r => r.toOption)) =
      some ([("user.role", "luật sư"), ("user.role", "luật sư")], true, some (some 1)) := by
    decide +kernel
  obtain ⟨t, ht, hend⟩ := Option.map_eq_some_iff.mp hend
  obtain ⟨hrows, hover, hresult⟩ : _ ∧ _ ∧ _ := by simpa only [Prod.mk.injEq] using hend
  have hbelow : t.Below 2 := by
    refine (idle_below 2 roleWorld).run ?_ ht
    decide
  have hdone : t.result 1 = some (.ok 1) := by
    obtain ⟨r, hr, hok⟩ := Option.map_eq_some_iff.mp hresult
    rw [hr]
    cases r with
    | ok n => rw [Option.some.inj hok]
    | error e => cases hok
  have hlinked :=
    h dot roleParsers llmDefaults 7 1 roleWorld diesAtUpsert t roleWorld_self roleWorld_settled hmeets ht
    (hbelow.finished hover) ⟨1, 1, hdone⟩
  have honce := hlinked.once
  rw [hrows] at honce
  exact absurd honce (by decide)

end LegalRag
