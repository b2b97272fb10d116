import LegalRag.Db.Documents
import LegalRag.Memory.Audit
import LegalRag.Memory.Dedupe
import LegalRag.Calls.Watch

/-!
# Whose facts are remembered

`retrieve_user_facts` of `src/memory/long_term.py`, next to the jobs that save the facts.  The API process
recalls while the worker's jobs read conversations, insert rows and upsert points, in any order.

`facts_owned` follows a fact from the conversation to the prompt: a row is of the owner of the
conversation that a job has read and names messages that this user wrote there; a point stands for a row;
and what is recalled for a user stands in rows of this user.
-/

namespace LegalRag

open Calls Prog Service

/-! ### Recalling -/

/-- A hit of a search with payload. -/
structure MemoryHit where
  payload : MemoryPoint
  score : ℚ
  deriving DecidableEq, Repr

/-- An entry of the list that `retrieve_user_facts` returns. -/
structure RecalledFact where
  key : String
  value : String
  confidence : PyFloat
  score : ℚ
  deriving DecidableEq, Repr

inductive RecallOp where
  | embed (texts : List String)
  /-- `qc.search` on the collection `memory`, with payload. -/
  | search (vector : Embedding) (limit : Nat) (must : List MemoryCondition)

@[reducible] def RecallOp.Resp : RecallOp → Type
  | .embed _ => List Embedding
  | .search .. => List MemoryHit

abbrev RecallCalls : Iface := ⟨RecallOp, RecallOp.Resp⟩

/-- A program that recalls facts. -/
abbrev Recall (α : Type) := Prog RecallCalls LlmErr α

abbrev recalls (o : RecallCalls.Op) : Recall (RecallCalls.Resp o) := Prog.perform o

/-- The entry of a hit. -/
def MemoryHit.recalled (h : MemoryHit) : RecalledFact :=
  ⟨h.payload.key, h.payload.value, h.payload.confidence, h.score⟩

/-- `retrieve_user_facts`. -/
def retrieveUserFacts (userId : Uuid) (query : String) (topK : Nat) : Recall (List RecalledFact) := do
  let vectors ← recalls (.embed [query])
  match vectors with
  | [vector] =>
    let hits ← recalls (.search vector topK [.userId (toString userId)])
    return hits.map MemoryHit.recalled
  | _ => throw ⟨"not enough or too many values to unpack (expected 1)"⟩

/-- The best hits, with payload, among the points that pass the filter. -/
def searchPayloads (similarity : Embedding → Embedding → ℚ) (points : List MemoryPoint)
    (vector : Embedding) (limit : Nat) (must : List MemoryCondition) : List MemoryHit :=
  (Ranked.ranked MemoryHit.score
    ((points.filter fun p => must.all (·.holds p)).map fun p => ⟨p, similarity vector p.vector⟩)).take limit

/-- The arguments of `retrieve_user_facts`. -/
structure RecallRequest where
  userId : Uuid
  query : String
  topK : Nat
  deriving DecidableEq, Repr

/-- The reply to a call; the jobs of the worker are not changed by it. -/
def recallReply (similarity : Embedding → Embedding → ℚ) :
    (o : RecallOp) → FactState → Except LlmErr o.Resp × FactState
  | .embed texts, s => (s.world.embed texts, s)
  | .search vector limit must, s => (.ok (searchPayloads similarity s.world.points vector limit must), s)

/-- Any number of recalls at once, with the jobs of the worker as the environment. -/
def recallService (similarity : Embedding → Embedding → ℚ) (parse : FactParsers) (c : LlmSettings) :
    Service RecallCalls LlmErr FactState RecallRequest FactLabel (List RecalledFact) where
  program r := retrieveUserFacts r.userId r.query r.topK
  enter _ s := s
  handle _ _ := recallReply similarity
  env l s := (factService similarity parse c).step s l

abbrev RecallState := State RecallCalls LlmErr FactState RecallRequest (List RecalledFact)

abbrev RecallLabel := Label LlmErr RecallRequest FactLabel

/-! ### Where facts come from -/

/-- The row is of the owner of a conversation, and its sources are messages that this user wrote there. -/
def OwnedRow (w : FactWorld) (f : UserFact) : Prop :=
  ∃ conv ∈ w.conversations, conv.userId = f.userId ∧ conv.tenantId = f.tenantId ∧
    ∀ i ∈ f.sourceMessageIds, ∃ m ∈ w.messages, m.id = i ∧ m.conversationId = conv.id ∧ m.role = .user

/-- The entry stands in a row. -/
structure RecalledFrom (f : UserFact) (h : RecalledFact) : Prop where
  key : f.key = .ofList (h.key.toList.take 128)
  value : h.value = f.value
  confidence : h.confidence = f.confidence

/-- Rows come from conversations of their users, points from rows, and what is recalled for a user from
the user's own rows. -/
structure FactsOwned (t : RecallState) : Prop where
  rows : ∀ f ∈ t.world.world.userFacts, OwnedRow t.world.world f
  points : ∀ p ∈ t.world.world.points, ∃ f ∈ t.world.world.userFacts, PointOf f p
  recalls : ∀ pid r facts, t.procs pid = some ⟨r, .done (.ok facts)⟩ → facts.length ≤ r.topK ∧
    ∀ h ∈ facts, ∃ f ∈ t.world.world.userFacts, f.userId = r.userId ∧ RecalledFrom f h

/-- Conversations and messages stay. -/
def ChatGrows (s : FactState) : FactLabel → Prop
  | .env (.chat conversations messages) =>
    s.world.conversations ⊆ conversations ∧ s.world.messages ⊆ messages
  | _ => True

/-- The same for the steps of the worker among those of the API. -/
def RecallGrows (t : RecallState) : RecallLabel → Prop
  | .env l => ChatGrows t.world l
  | _ => True

/-! ### What a job knows -/

/-- The messages that a job has read, and the conversation. -/
inductive OwnPhase where
  | unread
  | read (msgs : List Message)
  | known (msgs : List Message) (conv : JobConversation)

/-- A row of the conversation that has been read, with the sources that have been read. -/
structure RowFrom (msgs : List Message) (conv : JobConversation) (f : UserFact) : Prop where
  user : f.userId = conv.userId
  tenant : f.tenantId = conv.tenantId
  sources : f.sourceMessageIds = sourceIdsOf msgs

/-- A job reads the messages and then the conversation of its argument, and inserts rows of these. -/
def ownProtocol (convId : Uuid) : Protocol FactCalls LlmErr OwnPhase where
  allows
    | .known msgs conv, .addFact f => RowFrom msgs conv f
    | _, .addFact _ => False
    | .unread, .recentMessages c _ => c = convId
    | _, .recentMessages .. => False
    | .read _, .getConversation c => c = convId
    | _, .getConversation _ => False
    | _, _ => True
  replies _ _ _ := True
  next
    | .unread, .recentMessages .., msgs => .read msgs
    | .read msgs, .getConversation _, some conv => .known msgs conv
    | φ, _, _ => φ
  failed φ _ _ := φ

/-- The calls that neither read a conversation nor insert a row. -/
def FactPlain : FactOp → Prop
  | .recentMessages .. | .getConversation _ | .addFact _ => False
  | _ => True

/-- The calls of a job once it knows the conversation. -/
def FromOwner (msgs : List Message) (conv : JobConversation) (o : FactOp) : Prop :=
  FactPlain o ∨ ∃ f, o = .addFact f ∧ RowFrom msgs conv f

section Program

variable {parse : FactParsers} {c : LlmSettings} {convId : Uuid} {msgs : List Message}
    {conv : JobConversation}

private theorem own_plain {φ : OwnPhase} {o : FactOp} (ho : FactPlain o) :
    (ownProtocol convId).allows φ o ∧
    (∀ a, (ownProtocol convId).next φ o a = φ) ∧ ∀ e, (ownProtocol convId).failed φ o e = φ := by
  cases o <;>
    first | exact ho.elim | exact ⟨by cases φ <;> trivial, fun _ => by cases φ <;> rfl, fun _ => rfl⟩

private theorem own_fromOwner (o : FactOp) (ho : FromOwner msgs conv o) :
    (ownProtocol convId).allows (.known msgs conv) o ∧
      (∀ a, (ownProtocol convId).replies (.known msgs conv) o a →
        True ∧ (ownProtocol convId).next (.known msgs conv) o a = .known msgs conv) ∧
      ∀ e, (ownProtocol convId).failed (.known msgs conv) o e = .known msgs conv := by
  rcases ho with ho | ⟨f, rfl, hf⟩
  · obtain ⟨hallows, hnext, hfailed⟩ := @own_plain convId (.known msgs conv) o ho
    exact ⟨hallows, fun a _ => ⟨trivial, hnext a⟩, hfailed⟩
  · exact ⟨hf, fun _ _ => ⟨trivial, rfl⟩, fun _ => rfl⟩

/-- A session block: its commit and its rollback are plain. -/
private theorem ownScope {α : Type} {body : FactProg α} {φ : OwnPhase}
    {post : OwnPhase → Except LlmErr α → Prop} (hbody : body.Obeys (ownProtocol convId) post φ)
    (herr : ∀ ψ e, post ψ (.error e)) : (factScope body).Obeys (ownProtocol convId) post φ := by
  have hroll : ∀ ψ e, (fact .rollback >>= fun _ => (throw e : FactProg α)).Obeys (ownProtocol convId)
      post ψ :=
    fun ψ e => ⟨(@own_plain convId ψ .rollback trivial).1, fun a _ => herr _ e, fun e' => herr _ e'⟩
  refine obeys_handle (obeys_bind (hbody.mono fun ψ r hr => ?_))
  cases r with
  | error e => exact hroll ψ e
  | ok a =>
    obtain ⟨hallows, hnext, -⟩ := @own_plain convId ψ .commit trivial
    refine ⟨hallows, fun b _ => ?_, fun e => hroll _ e⟩
    rw [hnext b]
    exact hr

private theorem scope_fromOwner {α : Type} {body : FactProg α} (h : body.Only (FromOwner msgs conv)) :
    (factScope body).Only (FromOwner msgs conv) := by
  refine only_handle (only_bind h fun a => ?_) fun e => ?_
  · exact ⟨Or.inl trivial, fun _ _ => trivial, fun _ => trivial⟩
  · exact ⟨Or.inl trivial, fun _ _ => trivial, fun _ => trivial⟩

private theorem saveFact_fromOwner (key value : String) (confidence : PyFloat) :
    (saveFact conv.userId conv.tenantId key value confidence (sourceIdsOf msgs)).Only
      (FromOwner msgs conv) := by
  refine only_bind (only_perform (Or.inl trivial)) fun vectors => ?_
  split
  · refine only_bind (only_perform (Or.inl trivial)) fun hits => ?_
    split
    · trivial
    · refine only_bind (only_perform (Or.inl trivial)) fun pointId =>
        only_bind (scope_fromOwner ?_) fun _ => ?_
      · exact only_perform (Or.inr ⟨_, rfl, rfl, rfl, rfl⟩)
      · exact only_bind (only_perform (Or.inl trivial)) fun _ => trivial
  · trivial

private theorem saveAll_fromOwner (fs : List PyValue) :
    (saveAll parse conv (sourceIdsOf msgs) fs).Only (FromOwner msgs conv) := by
  induction fs with
  | nil => trivial
  | cons f fs ih =>
    refine only_bind (only_done _) fun key => only_bind (only_done _) fun value =>
      only_bind (only_done _) fun conf => ?_
    split
    · exact ih
    · exact only_bind (saveFact_fromOwner ..) fun ok => only_bind ih fun saved => trivial

private theorem extractFrom_fromOwner :
    (extractFrom parse c (some (msgs, conv))).Only (FromOwner msgs conv) := by
  refine only_bind (only_perform (Or.inl trivial)) fun resp => ?_
  split
  · trivial
  · exact only_bind (only_done _) fun facts => saveAll_fromOwner facts

/-- What the session has read is known at its end. -/
private theorem readConversation_owns :
    (readConversation convId).Obeys (ownProtocol convId)
      (fun ψ r => ∀ msgs conv, r = .ok (some (msgs, conv)) → ψ = .known msgs conv) .unread := by
  refine obeys_perform_bind rfl (fun msgs _ => ?_) (fun e msgs conv h => by cases h)
  split
  · intro msgs conv h
    cases h
  · refine obeys_perform_bind rfl (fun found _ => ?_) (fun e msgs conv h => by cases h)
    cases found with
    | none =>
      intro msgs conv h
      cases h
    | some conv =>
      intro msgs' conv' h
      cases h
      rfl

private theorem extractFacts_owns (parse : FactParsers) (c : LlmSettings) (convId : Uuid) :
    (extractFacts parse c convId).Obeys (ownProtocol convId) (fun _ _ => True) .unread := by
  refine obeys_bind ((ownScope readConversation_owns (fun ψ e msgs conv h => by cases h)).mono
    fun ψ r hr => ?_)
  cases r with
  | error e => trivial
  | ok found =>
    cases found with
    | none => trivial
    | some x =>
      obtain rfl : ψ = .known x.1 x.2 := hr x.1 x.2 rfl
      exact (obeys_of_follows own_fromOwner extractFrom_fromOwner).mono fun _ _ _ => trivial

end Program

/-! ### One call of a job -/

/-- What is in one world is in the other. -/
structure FactWorld.Extends (w v : FactWorld) : Prop where
  conversations : w.conversations ⊆ v.conversations
  messages : w.messages ⊆ v.messages
  rows : w.userFacts ⊆ v.userFacts

private theorem FactWorld.Extends.refl (w : FactWorld) : w.Extends w :=
  ⟨List.Subset.refl _, List.Subset.refl _, List.Subset.refl _⟩

private theorem OwnedRow.grow {w v : FactWorld} {f : UserFact} (h : OwnedRow w f) (hv : w.Extends v) :
    OwnedRow v f := by
  obtain ⟨conv, hconv, huser, htenant, hsources⟩ := h
  refine ⟨conv, hv.conversations hconv, huser, htenant, fun i hi => ?_⟩
  obtain ⟨m, hm, hid, hof, hrole⟩ := hsources i hi
  exact ⟨m, hv.messages hm, hid, hof, hrole⟩

/-- These are messages of the conversation. -/
def MessagesOf (convId : Uuid) (msgs : List Message) (w : FactWorld) : Prop :=
  ∀ m ∈ msgs, m ∈ w.messages ∧ m.conversationId = convId

/-- What has been read is there. -/
def OwnKnows (convId : Uuid) : OwnPhase → FactWorld → Prop
  | .unread, _ => True
  | .read msgs, w => MessagesOf convId msgs w
  | .known msgs conv, w => MessagesOf convId msgs w ∧ conv ∈ w.conversations ∧ conv.id = convId

private theorem OwnKnows.grow {convId : Uuid} {φ : OwnPhase} {w v : FactWorld} (h : OwnKnows convId φ w)
    (hv : w.Extends v) : OwnKnows convId φ v := by
  cases φ with
  | unread => trivial
  | read msgs => exact fun m hm => ⟨hv.messages (h m hm).1, (h m hm).2⟩
  | known msgs conv =>
    exact ⟨fun m hm => ⟨hv.messages (h.1 m hm).1, (h.1 m hm).2⟩, hv.conversations h.2.1, h.2.2⟩

/-- A row of what has been read comes from there. -/
private theorem RowFrom.owned {convId : Uuid} {msgs : List Message} {conv : JobConversation} {f : UserFact}
    {w : FactWorld} (h : RowFrom msgs conv f) (hk : OwnKnows convId (.known msgs conv) w) : OwnedRow w f := by
  obtain ⟨hmsgs, hconv, hid⟩ := hk
  refine ⟨conv, hconv, h.user.symm, h.tenant.symm, fun i hi => ?_⟩
  rw [h.sources] at hi
  obtain ⟨m, hm, rfl⟩ := List.mem_map.mp hi
  obtain ⟨hmem, hrole⟩ := List.mem_filter.mp hm
  exact ⟨m, (hmsgs m hmem).1, rfl, (hmsgs m hmem).2.trans hid.symm, by simpa using hrole⟩

section Call

variable {similarity : Embedding → Embedding → ℚ} {convId : Uuid} {pid : Nat} {φ : OwnPhase} {o : FactOp}
  {w : FactWorld}

/-- A call keeps what is there, and leaves the other sessions alone. -/
private theorem factReply_extends (similarity : Embedding → Embedding → ℚ) (pid : Nat) (o : FactOp)
    (w : FactWorld) :
    w.Extends (factReply similarity pid o w).2 ∧
      ∀ q, q ≠ pid → (factReply similarity pid o w).2.sessions q = w.sessions q := by
  cases o with
  | addFact f =>
    exact ⟨⟨List.Subset.refl _, List.Subset.refl _, List.Subset.refl _⟩,
      fun q hq => Function.update_of_ne hq _ _⟩
  | commit =>
    exact ⟨⟨List.Subset.refl _, List.Subset.refl _, List.subset_append_left _ _⟩,
      fun q hq => Function.update_of_ne hq _ _⟩
  | rollback =>
    exact ⟨⟨List.Subset.refl _, List.Subset.refl _, List.Subset.refl _⟩,
      fun q hq => Function.update_of_ne hq _ _⟩
  | _ => exact ⟨⟨List.Subset.refl _, List.Subset.refl _, List.Subset.refl _⟩, fun _ _ => rfl⟩

/-- The rows that a session has inserted come from conversations. -/
structure OwnFits (convId : Uuid) (pid : Nat) (φ : OwnPhase) (w : FactWorld) : Prop where
  knows : OwnKnows convId φ w
  pending : ∀ f ∈ w.sessions pid, OwnedRow w f

private theorem own_pending (ha : (ownProtocol convId).allows φ o) (hf : OwnFits convId pid φ w) :
    ∀ f ∈ (factReply similarity pid o w).2.sessions pid, OwnedRow (factReply similarity pid o w).2 f := by
  have hextends := (factReply_extends similarity pid o w).1
  cases o with
  | addFact f =>
    intro g hg
    have hg' : g ∈ w.sessions pid ++ [f] := by simpa [factReply] using hg
    rcases List.mem_append.mp hg' with hg' | hg'
    · exact (hf.pending g hg').grow hextends
    · obtain rfl := List.mem_singleton.mp hg'
      cases φ with
      | unread => exact ha.elim
      | read msgs => exact ha.elim
      | known msgs conv => exact (RowFrom.owned ha hf.knows).grow hextends
  | commit =>
    intro g hg
    simp [factReply] at hg
  | rollback =>
    intro g hg
    simp [factReply] at hg
  | _ => exact fun g hg => (hf.pending g hg).grow hextends

/-- What a call has read is there. -/
private theorem own_next (ha : (ownProtocol convId).allows φ o) (hk : OwnKnows convId φ w) {a : o.Resp}
    (hr : (factReply similarity pid o w).1 = .ok a) :
    OwnKnows convId ((ownProtocol convId).next φ o a) w := by
  cases o with
  | recentMessages cid n =>
    cases φ with
    | unread =>
      obtain rfl : cid = convId := ha
      intro m hm
      rw [← Except.ok.inj hr] at hm
      exact mem_of_mem_lastMessages hm
    | read msgs => exact ha.elim
    | known msgs conv => exact ha.elim
  | getConversation cid =>
    cases φ with
    | unread => exact ha.elim
    | read msgs =>
      obtain rfl : cid = convId := ha
      cases a with
      | none => exact hk
      | some conv =>
        have hfind : w.conversations.find? (·.id = cid) = some conv := Except.ok.inj hr
        exact ⟨hk, List.mem_of_find?_eq_some hfind, by simpa using List.find?_some hfind⟩
    | known msgs conv => exact ha.elim
  | addFact f => cases φ <;> exact hk
  | complete _ | embed _ | search _ _ _ | uuid4 | commit | rollback | upsert _ => cases φ <;> exact hk

private theorem OwnFits.call (ha : (ownProtocol convId).allows φ o) (hf : OwnFits convId pid φ w)
    {out : Outcome LlmErr} {rep : Except LlmErr o.Resp}
    (hrep : out.reply (factReply similarity pid) o w = some rep) :
    (∀ a, rep = .ok a → (ownProtocol convId).replies φ o a) ∧
      OwnFits convId pid ((ownProtocol convId).after φ o rep) (out.world (factReply similarity pid) o w) := by
  have hextends := (factReply_extends similarity pid o w).1
  refine Protocol.after_fits (F := fun ψ v => OwnFits convId pid ψ v) (fun a hr => ⟨trivial, ?_⟩)
    (fun e v hv => ?_) hrep
  · exact ⟨(own_next ha hf.knows hr).grow hextends, own_pending ha hf⟩
  · rcases hv with rfl | rfl
    · exact hf
    · exact ⟨hf.knows.grow hextends, own_pending ha hf⟩

/-- A fact that is being saved is in the session, and then in the table. -/
def SaveFits (_ : Uuid) (pid : Nat) : SavePhase → FactWorld → Prop
  | .inserted _ _ f, w => f ∈ w.sessions pid
  | .committed _ _ f, w => f ∈ w.userFacts
  | _, _ => True

private theorem saveFits_call {ψ : SavePhase} (ha : saveProtocol.allows ψ o) (hf : SaveFits convId pid ψ w)
    {out : Outcome LlmErr} {rep : Except LlmErr o.Resp}
    (hrep : out.reply (factReply similarity pid) o w = some rep) :
    (∀ a, rep = .ok a → saveProtocol.replies ψ o a) ∧
      SaveFits convId pid (saveProtocol.after ψ o rep) (out.world (factReply similarity pid) o w) := by
  refine Protocol.after_fits (P := saveProtocol) (F := fun ψ v => SaveFits convId pid ψ v)
    (fun a hr => ⟨trivial, ?_⟩) (fun e v hv => trivial) hrep
  rcases allows_cases ha with ⟨rfl, -⟩ | ⟨rfl, rfl⟩ | ⟨text, rfl, rfl⟩ | ⟨text, v, must, q, rfl, rfl, hq⟩ |
    ⟨text, q, rfl, rfl⟩ | ⟨text, q, f, rfl, rfl, -⟩ | ⟨text, q, f, rfl, rfl⟩ | ⟨text, q, f, p, rfl, rfl, -⟩ |
    ⟨rfl, rfl⟩
  · cases o <;> trivial
  · trivial
  · trivial
  · show SaveFits convId pid (if _ then _ else _) _
    split
    · trivial
    · rw [hq]
      trivial
  · trivial
  · show f ∈ Function.update w.sessions pid (w.sessions pid ++ [f]) pid
    rw [Function.update_self]
    exact List.mem_append_right _ (List.mem_singleton_self f)
  · exact List.mem_append_right _ hf
  · trivial
  · trivial

end Call

/-! ### One step of the worker -/

section Worker

variable {similarity : Embedding → Embedding → ℚ} {parse : FactParsers} {c : LlmSettings}
  {s s' : FactState} {l : FactLabel}

/-- The invariant of the worker. -/
structure WorkerOwned (s : FactState) : Prop where
  saving : s.Obeys (fun _ => saveProtocol) (fun _ => SaveEnds) SaveFits
  owning : s.Obeys ownProtocol (fun _ _ _ => True) OwnFits
  rows : ∀ f ∈ s.world.userFacts, OwnedRow s.world f
  points : ∀ p ∈ s.world.points, ∃ f ∈ s.world.userFacts, PointOf f p

/-- A step keeps what is there, and leaves the sessions of the other jobs alone. -/
private theorem worker_extends (hg : ChatGrows s l)
    (h : (factService similarity parse c).step s l = some s') :
    s.world.Extends s'.world ∧ ∀ q, l.pid ≠ some q → s'.world.sessions q = s.world.sessions q := by
  rcases step_cases h with ⟨pid, r, rfl, -, rfl⟩ | ⟨pid, out, r, o, k, rfl, -, rfl⟩ | ⟨e, w, rfl, hw, rfl⟩
  · refine ⟨⟨List.Subset.refl _, List.Subset.refl _, List.Subset.refl _⟩, fun q hq => ?_⟩
    exact Function.update_of_ne (fun he => hq (by rw [he]; rfl)) _ _
  · rw [resume_world]
    rcases Outcome.world_eq (factReply similarity pid) o s.world out with hw | hw
    · have hw' : out.world ((factService similarity parse c).handle pid r) o s.world = s.world := hw
      rw [hw']
      exact ⟨.refl _, fun _ _ => rfl⟩
    · have hw' : out.world ((factService similarity parse c).handle pid r) o s.world =
        (factReply similarity pid o s.world).2 := hw
      rw [hw']
      obtain ⟨hextends, hothers⟩ := factReply_extends similarity pid o s.world
      exact ⟨hextends, fun q hq => hothers q fun he => hq (by rw [he]; rfl)⟩
  · obtain rfl : FactEnv.step e s.world = w := Option.some.inj hw
    cases e with
    | chat conversations messages => exact ⟨⟨hg.1, hg.2, List.Subset.refl _⟩, fun _ _ => rfl⟩
    | servers complete embed =>
      exact ⟨⟨List.Subset.refl _, List.Subset.refl _, List.Subset.refl _⟩, fun _ _ => rfl⟩

private theorem savingFits_step (hi : WorkerOwned s) (hg : ChatGrows s l)
    (h : (factService similarity parse c).step s l = some s') :
    s'.Obeys (fun _ => saveProtocol) (fun _ => SaveEnds) SaveFits := by
  obtain ⟨hextends, hsessions⟩ := worker_extends hg h
  refine obeys_step ?_ ?_ ?_ hi.saving h
  · exact fun pid r w => ⟨.free, extractFacts_obeys parse c r, trivial⟩
  · exact fun pid r o k out φ rep _ _ ha hf hrep => saveFits_call ha hf hrep
  · intro q p φ hq _ _ hf
    cases φ with
    | inserted text fq f =>
      show f ∈ s'.world.sessions q
      rw [hsessions q hq]
      exact hf
    | committed text fq f => exact hextends.rows hf
    | _ => trivial

private theorem owning_step (hi : WorkerOwned s) (hg : ChatGrows s l)
    (h : (factService similarity parse c).step s l = some s') :
    s'.Obeys ownProtocol (fun _ _ _ => True) OwnFits := by
  obtain ⟨hextends, hsessions⟩ := worker_extends hg h
  refine obeys_step ?_ ?_ ?_ hi.owning h
  · intro pid r w
    refine ⟨.unread, extractFacts_owns parse c r, trivial, fun f hf => ?_⟩
    have hempty : f ∈ Function.update w.sessions pid [] pid := hf
    rw [Function.update_self] at hempty
    cases hempty
  · exact fun pid r o k out φ rep _ _ ha hf hrep => hf.call ha hrep
  · intro q p φ hq _ _ hf
    refine ⟨hf.knows.grow hextends, fun f hfact => ?_⟩
    rw [hsessions q hq] at hfact
    exact (hf.pending f hfact).grow hextends

/-- What a call does to rows and points: the rows of the session are committed, or the point of a
committed row is upserted. -/
private theorem factStores_call {pid : Nat} {o : FactOp} {w : FactWorld} {ψ : SavePhase} {convId : Uuid}
    (ha : saveProtocol.allows ψ o) (hf : SaveFits convId pid ψ w) :
    (∀ f ∈ (factReply similarity pid o w).2.userFacts, f ∈ w.userFacts ∨ f ∈ w.sessions pid) ∧
      ∀ p ∈ (factReply similarity pid o w).2.points, p ∈ w.points ∨ ∃ f ∈ w.userFacts, PointOf f p := by
  refine ⟨fun f hfact => ?_, fun p hp => ?_⟩
  · cases o with
    | commit => exact List.mem_append.mp hfact
    | _ => exact Or.inl hfact
  · rcases @points_reply similarity pid o w with hsame | ⟨x, rfl, hpoints⟩
    · rw [hsame] at hp
      exact Or.inl hp
    · rw [hpoints] at hp
      rcases List.mem_append.mp hp with hp | hp
      · exact Or.inl (List.mem_of_mem_filter hp)
      · obtain rfl := List.mem_singleton.mp hp
        cases ψ with
        | committed text q f => exact Or.inr ⟨f, hf, ha.2⟩
        | _ => exact ha.elim

private theorem WorkerOwned.step (hi : WorkerOwned s) (hg : ChatGrows s l)
    (h : (factService similarity parse c).step s l = some s') : WorkerOwned s' := by
  obtain ⟨hextends, -⟩ := worker_extends hg h
  have hstores : (∀ f ∈ s'.world.userFacts, OwnedRow s.world f) ∧
      ∀ p ∈ s'.world.points, ∃ f ∈ s.world.userFacts, PointOf f p := by
    rcases step_cases h with ⟨pid, r, rfl, -, rfl⟩ | ⟨pid, out, r, o, k, rfl, hproc, rfl⟩ |
      ⟨e, w, rfl, hw, rfl⟩
    · exact ⟨hi.rows, hi.points⟩
    · rw [resume_world]
      rcases Outcome.world_eq (factReply similarity pid) o s.world out with hw | hw
      · have hw' : out.world ((factService similarity parse c).handle pid r) o s.world = s.world := hw
        rw [hw']
        exact ⟨hi.rows, hi.points⟩
      · have hw' : out.world ((factService similarity parse c).handle pid r) o s.world =
          (factReply similarity pid o s.world).2 := hw
        rw [hw']
        obtain ⟨ψ, ⟨ha, -⟩, hsave⟩ := hi.saving pid _ hproc
        obtain ⟨φ, -, hown⟩ := hi.owning pid _ hproc
        obtain ⟨hrows, hpoints⟩ := @factStores_call similarity _ _ _ _ _ ha hsave
        refine ⟨fun f hf => ?_, fun p hp => ?_⟩
        · rcases hrows f hf with hf | hf
          · exact hi.rows f hf
          · exact hown.pending f hf
        · rcases hpoints p hp with hp | hp
          · exact hi.points p hp
          · exact hp
    · obtain rfl : FactEnv.step e s.world = w := Option.some.inj hw
      cases e <;> exact ⟨hi.rows, hi.points⟩
  refine ⟨savingFits_step hi hg h, owning_step hi hg h, fun f hf => (hstores.1 f hf).grow hextends,
    fun p hp => ?_⟩
  obtain ⟨f, hf, hpoint⟩ := hstores.2 p hp
  exact ⟨f, hextends.rows hf, hpoint⟩

end Worker

/-! ### Recalls -/

section Recalls

variable {similarity : Embedding → Embedding → ℚ} {parse : FactParsers} {c : LlmSettings}
  {t t' : RecallState} {l : RecallLabel}

/-- What can be left of a recall. -/
inductive RecallStage (r : RecallRequest) : Recall (List RecalledFact) → Prop
  | new {p : Recall (List RecalledFact)} (hp : p = retrieveUserFacts r.userId r.query r.topK) :
    RecallStage r p
  | searching {p : Recall (List RecalledFact)} (vector : Embedding)
    (hp : p = recalls (.search vector r.topK [.userId (toString r.userId)]) >>= fun hits =>
      pure (hits.map MemoryHit.recalled)) : RecallStage r p
  | over (x : Except LlmErr (List RecalledFact)) : RecallStage r (.done x)

/-- The hits of a search for a user. -/
private theorem searchPayloads_user {points : List MemoryPoint} {vector : Embedding} {limit : Nat}
    {userId : Uuid} :
    (searchPayloads similarity points vector limit [.userId (toString userId)]).length ≤ limit ∧
      ∀ h ∈ searchPayloads similarity points vector limit [.userId (toString userId)],
        h.payload ∈ points ∧ h.payload.userId = toString userId := by
  refine ⟨List.length_take_le _ _, fun h hh => ?_⟩
  have hmem := Ranked.mem_ranked.mp (List.mem_of_mem_take hh)
  obtain ⟨p, hp, rfl⟩ := List.mem_map.mp hmem
  obtain ⟨hp, hpass⟩ := List.mem_filter.mp hp
  exact ⟨hp, by simpa [MemoryCondition.holds] using hpass⟩

/-- What is recalled stands in rows of the user. -/
def RecalledRows (r : RecallRequest) (facts : List RecalledFact) (w : FactWorld) : Prop :=
  facts.length ≤ r.topK ∧ ∀ h ∈ facts, ∃ f ∈ w.userFacts, f.userId = r.userId ∧ RecalledFrom f h

private theorem RecalledRows.grow {r : RecallRequest} {facts : List RecalledFact} {w v : FactWorld}
    (h : RecalledRows r facts w) (hv : w.Extends v) : RecalledRows r facts v := by
  refine ⟨h.1, fun x hx => ?_⟩
  obtain ⟨f, hf, huser, hfrom⟩ := h.2 x hx
  exact ⟨f, hv.rows hf, huser, hfrom⟩

private theorem recalledRows_search {s : FactState} (hs : WorkerOwned s) (r : RecallRequest)
    (vector : Embedding) :
    RecalledRows r ((searchPayloads similarity s.world.points vector r.topK
      [.userId (toString r.userId)]).map MemoryHit.recalled) s.world := by
  obtain ⟨hlen, hhits⟩ := @searchPayloads_user similarity s.world.points vector r.topK r.userId
  refine ⟨by rwa [List.length_map], fun x hx => ?_⟩
  obtain ⟨h, hh, rfl⟩ := List.mem_map.mp hx
  obtain ⟨hp, huser⟩ := hhits h hh
  obtain ⟨f, hf, hpoint⟩ := hs.points h.payload hp
  exact ⟨f, hf, uuid_str_inj (hpoint.user.symm.trans huser), hpoint.key, hpoint.value, hpoint.confidence⟩

/-- The invariant of the recalls, over that of the worker. -/
structure RecallOwned (t : RecallState) : Prop where
  worker : WorkerOwned t.world
  stages : ∀ pid r p, t.procs pid = some ⟨r, p⟩ → RecallStage r p
  recalls : ∀ pid r facts, t.procs pid = some ⟨r, .done (.ok facts)⟩ → RecalledRows r facts t.world.world

private theorem recallReply_state (o : RecallOp) (s : FactState) : (recallReply similarity o s).2 = s := by
  cases o <;> rfl

/-- The worker after a step of the API. -/
private theorem recall_world (hi : RecallOwned t) (hg : RecallGrows t l)
    (h : (recallService similarity parse c).step t l = some t') :
    WorkerOwned t'.world ∧ t.world.world.Extends t'.world.world := by
  have hself := FactWorld.Extends.refl t.world.world
  rcases step_cases h with ⟨pid, r, rfl, -, rfl⟩ | ⟨pid, out, r, o, k, rfl, hproc, rfl⟩ | ⟨e, s, rfl, hs, rfl⟩
  · exact ⟨hi.worker, hself⟩
  · rw [resume_world]
    have hworld : out.world ((recallService similarity parse c).handle pid r) o t.world = t.world := by
      rcases Outcome.world_eq ((recallService similarity parse c).handle pid r) o t.world out with hw | hw
      · exact hw
      · exact hw.trans (recallReply_state o t.world)
    rw [hworld]
    exact ⟨hi.worker, hself⟩
  · exact ⟨hi.worker.step hg hs, (worker_extends hg hs).1⟩

/-- What follows a call of a recall. -/
private theorem RecallStage.next {r : RecallRequest} {o : RecallCalls.Op}
    {k : Except LlmErr (RecallCalls.Resp o) → Recall (List RecalledFact)} (h : RecallStage r (.call o k))
    {s : FactState} {out : Outcome LlmErr} {rep : Except LlmErr (RecallCalls.Resp o)} (hs : WorkerOwned s)
    (hrep : out.reply (recallReply similarity) o s = some rep) :
    RecallStage r (k rep) ∧ ∀ facts, k rep = .done (.ok facts) → RecalledRows r facts s.world := by
  cases h with
  | new hp =>
    obtain ⟨rfl, hk⟩ := Prog.call.inj hp
    obtain rfl := eq_of_heq hk
    cases rep with
    | error e => exact ⟨.over _, fun facts hfacts => by cases hfacts⟩
    | ok vectors =>
      cases vectors with
      | nil => exact ⟨.over _, fun facts hfacts => by cases hfacts⟩
      | cons vector more =>
        cases more with
        | nil => exact ⟨.searching vector rfl, fun facts hfacts => by cases hfacts⟩
        | cons v vs => exact ⟨.over _, fun facts hfacts => by cases hfacts⟩
  | searching vector hp =>
    obtain ⟨rfl, hk⟩ := Prog.call.inj hp
    obtain rfl := eq_of_heq hk
    cases rep with
    | error e => exact ⟨.over _, fun facts hfacts => by cases hfacts⟩
    | ok hits =>
      have hhits : searchPayloads similarity s.world.points vector r.topK
        [.userId (toString r.userId)] = hits := Except.ok.inj (Outcome.handler_ok hrep)
      refine ⟨.over _, fun facts hfacts => ?_⟩
      obtain rfl : hits.map MemoryHit.recalled = facts := Except.ok.inj (Prog.done.inj hfacts)
      rw [← hhits]
      exact recalledRows_search hs r vector

private theorem RecallOwned.step (hi : RecallOwned t) (hg : RecallGrows t l)
    (h : (recallService similarity parse c).step t l = some t') : RecallOwned t' := by
  obtain ⟨hworker, hextends⟩ := recall_world hi hg h
  have hboth : ∀ pid r p, t'.procs pid = some ⟨r, p⟩ →
      RecallStage r p ∧ ∀ facts, p = .done (.ok facts) → RecalledRows r facts t.world.world := by
    intro pid r p hp
    by_cases hne : t.procs pid = some ⟨r, p⟩
    · refine ⟨hi.stages pid r p hne, fun facts hfacts => ?_⟩
      subst hfacts
      exact hi.recalls pid r facts hne
    · rcases proc_turns h hp hne with ⟨-, hnew⟩ | ⟨out, o, k, rep, rfl, hproc, hrep, hk⟩
      · obtain rfl : p = retrieveUserFacts r.userId r.query r.topK := hnew
        exact ⟨.new rfl, fun facts hfacts => by cases hfacts⟩
      · obtain rfl : p = k rep := hk
        exact (hi.stages pid r _ hproc).next hi.worker hrep
  exact ⟨hworker, fun pid r p hp => (hboth pid r p hp).1,
    fun pid r facts hp => ((hboth pid r _ hp).2 facts rfl).grow hextends⟩

end Recalls

/-- In every interleaving of recalls and extraction jobs, failing and dying wherever they may, over
conversations that only grow: rows come from conversations of their users, points from rows, and what is
recalled for a user from the user's own rows. -/
theorem facts_owned (similarity : Embedding → Embedding → ℚ) (parse : FactParsers) (c : LlmSettings)
    (w : FactWorld) (hrows : w.userFacts = []) (hpoints : w.points = []) (ls : List RecallLabel)
    (t : RecallState) (hm : (recallService similarity parse c).Meets RecallGrows (idle (idle w)) ls)
    (hrun : (recallService similarity parse c).run (idle (idle w)) ls = some t) : FactsOwned t := by
  have hworker : WorkerOwned (idle w) := by
    refine ⟨idle_obeys _ _ _ w, idle_obeys _ _ _ w, fun f hf => ?_, fun p hp => ?_⟩
    · have hnil : f ∈ w.userFacts := hf
      rw [hrows] at hnil
      cases hnil
    · have hnil : p ∈ w.points := hp
      rw [hpoints] at hnil
      cases hnil
  have hidle : RecallOwned (idle (idle w)) := by
    refine ⟨hworker, ?_, ?_⟩
    · intro pid r p hp
      cases hp
    · intro pid r facts hp
      cases hp
  have hend := run_induct (fun _ _ _ hi hg hs => RecallOwned.step hi hg hs) hidle hm hrun
  exact ⟨hend.worker.rows, hend.worker.points, hend.recalls⟩

/-! ### A run -/

/-- A job saves a fact, and then the owner of the conversation and another user ask. -/
def recallRun : List RecallLabel :=
  .env (.start 0 7) :: List.replicate 10 (.env (.call 0 .ok)) ++
    [.start 0 ⟨1, "Tôi làm nghề gì?", 5⟩, .start 1 ⟨3, "Tôi làm nghề gì?", 5⟩, .call 0 .ok, .call 1 .ok,
      .call 0 .ok, .call 1 .ok]

/-- A run in which nothing is said besides. -/
def quietChat : RecallLabel → Bool
  | .env (.env (.chat ..)) => false
  | _ => true

theorem facts_owned_two : ∃ t, (recallService dot roleParsers llmDefaults).run (idle (idle roleWorld))
    recallRun = some t ∧ FactsOwned t ∧
      ((t.result 0).bind (·.toOption)).map (·.map (·.value)) = some ["luật sư"] ∧
      ((t.result 1).bind (·.toOption)).map (·.map (·.value)) = some [] := by
  have hmeets : (recallService dot roleParsers llmDefaults).Meets RecallGrows (idle (idle roleWorld))
      recallRun := by
    refine Meets.imp (C := fun _ l => quietChat l = true) (fun t l h => ?_)
      (meets_labels (List.all_eq_true.mp rfl))
    cases l with
    | start pid r => trivial
    | call pid out => trivial
    | env l =>
      cases l with
      | start pid r => trivial
      | call pid out => trivial
      | env e =>
        cases e with
        | chat conversations messages => cases h
        | servers complete embed => trivial
  have hends : ((recallService dot roleParsers llmDefaults).run (idle (idle roleWorld)) recallRun).map
      (fun t => (((t.result 0).bind (·.toOption)).map (·.map (·.value)),
        ((t.result 1).bind (·.toOption)).map (·.map (·.value)))) = some (some ["luật sư"], some []) := by
    decide +kernel
  obtain ⟨t, hrun, hend⟩ := Option.map_eq_some_iff.mp hends
  obtain ⟨howner, hother⟩ := Prod.mk.inj hend
  exact ⟨t, hrun, facts_owned dot roleParsers llmDefaults roleWorld rfl rfl recallRun t hmeets hrun, howner,
    hother⟩

end LegalRag
