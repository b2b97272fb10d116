import LegalRag.Calls.Protocol
import LegalRag.Memory.Facts

/-!
# The phases of the job

Between its search and its upsert a job inserts and commits the row of the same fact, and makes no other
call (`extractFacts_obeys`).  The point it is about to upsert can be read off what is left of its program
(`pending`).
-/

namespace LegalRag

open Calls Prog

/-- What is looked up for a fact. -/
structure FactQuery where
  vector : Embedding
  userId : String
  key : String
  deriving DecidableEq, Repr

/-- The query for a point. -/
def MemoryPoint.query (p : MemoryPoint) : FactQuery := ⟨p.vector, p.userId, p.key⟩

/-- The query of a search with these conditions. -/
def queryOf (vector : Embedding) : List MemoryCondition → Option FactQuery
  | [.userId userId, .key key] => some ⟨vector, userId, key⟩
  | _ => none

inductive SavePhase where
  | free
  /-- A text was embedded. -/
  | embedded (text : String) (vectors : List Embedding)
  /-- The search has found no similar fact. -/
  | missed (text : String) (q : FactQuery)
  | named (text : String) (q : FactQuery) (pointId : Uuid)
  | inserted (text : String) (q : FactQuery) (f : UserFact)
  | committed (text : String) (q : FactQuery) (f : UserFact)
  /-- A call has failed. -/
  | broken

/-- The query of the fact that is being saved. -/
def SavePhase.query : SavePhase → Option FactQuery
  | .missed _ q | .named _ q _ | .inserted _ q _ | .committed _ q _ => some q
  | .free | .embedded .. | .broken => none

/-- The row of a fact that was embedded as `text` and looked up by the query. -/
structure RowOf (text : String) (q : FactQuery) (f : UserFact) : Prop where
  user : toString f.userId = q.userId
  key : f.key = .ofList (q.key.toList.take 128)
  text : text = q.key ++ ": " ++ f.value

/-- The point of a row. -/
structure PointOf (f : UserFact) (p : MemoryPoint) : Prop where
  id : p.id = f.qdrantPointId
  user : p.userId = toString f.userId
  tenant : p.tenantId = toString f.tenantId
  key : f.key = .ofList (p.key.toList.take 128)
  value : p.value = f.value
  confidence : p.confidence = f.confidence

/-- The phases of saving one fact after the other. -/
def saveProtocol : Protocol FactCalls LlmErr SavePhase where
  allows
    | .free, .recentMessages .. | .free, .getConversation _ | .free, .complete _ | .free, .commit => True
    | .free, .embed texts => ∃ text, texts = [text]
    | .embedded _ vectors, .search v limit must => limit = 1 ∧ vectors = [v] ∧ (queryOf v must).isSome
    | .missed .., .uuid4 => True
    | .named text q id, .addFact f => RowOf text q f ∧ f.qdrantPointId = id
    | .inserted .., .commit => True
    | .committed _ q f, .upsert p => p.query = q ∧ PointOf f p
    | .broken, .rollback => True
    | _, _ => False
  replies _ _ _ := True
  next
    | .free, .embed texts, vectors => .embedded (texts.headD "") vectors
    | .embedded text _, .search v _ must, hits =>
      if hits.head?.any fun h => dedupeThreshold ≤ h.score then .free
      else ((queryOf v must).map (.missed text)).getD .free
    | .missed text q, .uuid4, id => .named text q id
    | .named text q _, .addFact f, _ => .inserted text q f
    | .inserted text q f, .commit, _ => .committed text q f
    | .committed .., .upsert _, _ => .free
    | φ, _, _ => φ
  failed _ _ _ := .broken

/-- A job ends between two facts, or with an exception: after a failure, or because of what the embedder
has sent. -/
def SaveEnds {α : Type} (φ : SavePhase) (r : Except LlmErr α) : Prop :=
  φ = .free ∨ (φ = .broken ∨ ∃ text vectors, φ = .embedded text vectors) ∧ ∃ e, r = .error e

/-- A session block in which nothing is raised but by a failed call. -/
def ReadEnds {α : Type} (φ : SavePhase) (r : Except LlmErr α) : Prop :=
  (φ = .free ∧ ∃ a, r = .ok a) ∨ φ = .broken ∧ ∃ e, r = .error e

private theorem readEnds_broken {α : Type} (e : LlmErr) : ReadEnds .broken (.error e : Except LlmErr α) :=
  Or.inr ⟨rfl, e, rfl⟩

private theorem saveEnds_broken {α : Type} (e : LlmErr) : SaveEnds .broken (.error e : Except LlmErr α) :=
  Or.inr ⟨Or.inl rfl, e, rfl⟩

/-! ### The job obeys the protocol -/

section Obeys

variable {α β : Type}

/-- A session whose body fails is rolled back. -/
private theorem factScope_obeys {body : FactProg α} {φ : SavePhase}
    {post : SavePhase → Except LlmErr α → Prop}
    (hbody : body.Obeys saveProtocol (fun ψ r => (∀ a, r = .ok a → saveProtocol.allows ψ .commit ∧
      post (saveProtocol.next ψ .commit ()) (.ok a)) ∧ ∀ e, r = .error e → ψ = .broken) φ)
    (herr : ∀ e, post .broken (.error e)) : (factScope body).Obeys saveProtocol post φ := by
  have hroll : ∀ e, (fact .rollback >>= fun _ => (throw e : FactProg α)).Obeys saveProtocol post .broken :=
    fun e => ⟨trivial, fun _ _ => herr e, fun e' => herr e'⟩
  refine obeys_handle (obeys_bind (hbody.mono fun ψ r hr => ?_))
  cases r with
  | ok a =>
    obtain ⟨hcommit, hpost⟩ := hr.1 a rfl
    exact ⟨hcommit, fun _ _ => hpost, fun e => hroll e⟩
  | error e =>
    obtain rfl := hr.2 e rfl
    exact hroll e

/-- A computation that may raise, in a phase in which the job may end. -/
private theorem raising_obeys {r : Except PyErr α} {f : α → FactProg β}
    {post : SavePhase → Except LlmErr β → Prop}
    (hok : ∀ a, r = .ok a → (f a).Obeys saveProtocol post .free) (herr : ∀ e, post .free (.error e)) :
    (raising r >>= f).Obeys saveProtocol post .free := by
  cases r with
  | ok a => exact hok a rfl
  | error e => exact herr ⟨e.text⟩

/-- A call in the free phase that does not leave it. -/
private theorem free_obeys {o : FactOp} {f : o.Resp → FactProg β} {post : SavePhase → Except LlmErr β → Prop}
    (hallows : saveProtocol.allows .free o) (hnext : ∀ a, saveProtocol.next .free o a = .free)
    (hf : ∀ a, (f a).Obeys saveProtocol post .free) (herr : ∀ e, post .broken (.error e)) :
    (fact o >>= f).Obeys saveProtocol post .free := by
  refine obeys_perform_bind hallows (fun a _ => ?_) herr
  rw [hnext a]
  exact hf a

/-- One part of a job after the other. -/
private theorem saveEnds_bind {p : FactProg α} {f : α → FactProg β} (hp : p.Obeys saveProtocol SaveEnds .free)
    (hf : ∀ a, (f a).Obeys saveProtocol SaveEnds .free) : (p >>= f).Obeys saveProtocol SaveEnds .free := by
  refine obeys_bind (hp.mono fun φ r hr => ?_)
  cases r with
  | ok a =>
    rcases hr with rfl | ⟨-, e, he⟩
    · exact hf a
    · cases he
  | error e =>
    rcases hr with rfl | ⟨hφ, -⟩
    · exact Or.inl rfl
    · exact Or.inr ⟨hφ, e, rfl⟩

private theorem insertFact_obeys {userId tenantId : Uuid} {key value : String} {confidence : PyFloat}
    {sourceIds : List Uuid} {vector : Embedding} :
    (insertFact userId tenantId key value confidence sourceIds vector).Obeys saveProtocol SaveEnds
      (.missed (key ++ ": " ++ value) ⟨vector, toString userId, key⟩) := by
  refine obeys_perform_bind trivial (fun pointId _ => ?_) saveEnds_broken
  refine obeys_bind (factScope_obeys ?_ saveEnds_broken)
  refine obeys_perform ⟨⟨rfl, rfl, rfl⟩, rfl⟩ ?_ ?_
  · intro _ _
    constructor
    · intro _ _
      refine ⟨trivial, ?_⟩
      exact obeys_perform_bind ⟨rfl, ⟨rfl, rfl, rfl, rfl, rfl, rfl⟩⟩ (fun _ _ => Or.inl rfl) saveEnds_broken
    · intro e he
      cases he
  · intro e
    constructor
    · intro a ha
      cases ha
    · intro _ _
      rfl

private theorem saveFact_obeys {userId tenantId : Uuid} {key value : String} {confidence : PyFloat}
    {sourceIds : List Uuid} :
    (saveFact userId tenantId key value confidence sourceIds).Obeys saveProtocol SaveEnds .free := by
  refine obeys_perform_bind ⟨_, rfl⟩ (fun vectors _ => ?_) saveEnds_broken
  split
  · rename_i vector
    refine obeys_perform_bind ⟨rfl, rfl, rfl⟩ (fun hits _ => ?_) saveEnds_broken
    show (if hits.head?.any (fun h => dedupeThreshold ≤ h.score) = true then
      (return false : FactProg Bool) else _).Obeys _ _
      (if hits.head?.any (fun h => dedupeThreshold ≤ h.score) = true then SavePhase.free else _)
    by_cases hdup : hits.head?.any (fun h => dedupeThreshold ≤ h.score) = true
    · rw [if_pos hdup, if_pos hdup]
      exact Or.inl rfl
    · rw [if_neg hdup, if_neg hdup]
      exact insertFact_obeys
  · exact Or.inr ⟨Or.inr ⟨_, _, rfl⟩, _, rfl⟩

private theorem saveAll_obeys {parse : FactParsers} {conv : JobConversation} {sourceIds : List Uuid}
    (fs : List PyValue) : (saveAll parse conv sourceIds fs).Obeys saveProtocol SaveEnds .free := by
  induction fs with
  | nil => exact Or.inl rfl
  | cons f fs ih =>
    refine raising_obeys (fun key _ => ?_) fun _ => Or.inl rfl
    refine raising_obeys (fun value _ => ?_) fun _ => Or.inl rfl
    refine raising_obeys (fun conf _ => ?_) fun _ => Or.inl rfl
    split
    · exact ih
    · exact saveEnds_bind saveFact_obeys fun ok => saveEnds_bind ih fun saved => Or.inl rfl

private theorem readConversation_obeys (convId : Uuid) :
    (readConversation convId).Obeys saveProtocol ReadEnds .free := by
  refine free_obeys trivial (fun _ => rfl) (fun msgs => ?_) readEnds_broken
  split
  · exact Or.inl ⟨rfl, _, rfl⟩
  · refine free_obeys trivial (fun _ => rfl) (fun conv => ?_) readEnds_broken
    split
    · exact Or.inl ⟨rfl, _, rfl⟩
    · exact Or.inl ⟨rfl, _, rfl⟩

private theorem extractFrom_obeys (parse : FactParsers) (s : LlmSettings)
    (found : Option (List Message × JobConversation)) :
    (extractFrom parse s found).Obeys saveProtocol SaveEnds .free := by
  cases found with
  | none => exact Or.inl rfl
  | some x =>
    refine free_obeys trivial (fun _ => rfl) (fun resp => ?_) saveEnds_broken
    split
    · exact Or.inl rfl
    · exact raising_obeys (fun facts _ => saveAll_obeys facts) fun _ => Or.inl rfl

/-- The job obeys the protocol. -/
theorem extractFacts_obeys (parse : FactParsers) (s : LlmSettings) (convId : Uuid) :
    (extractFacts parse s convId).Obeys saveProtocol SaveEnds .free := by
  refine obeys_bind (factScope_obeys ?_ saveEnds_broken)
  refine (readConversation_obeys convId).mono fun φ r hr => ?_
  constructor
  · intro found hfound
    rcases hr with ⟨rfl, -⟩ | ⟨-, e, he⟩
    · exact ⟨trivial, extractFrom_obeys parse s found⟩
    · rw [he] at hfound
      cases hfound
  · intro e he
    rcases hr with ⟨-, a, ha⟩ | ⟨rfl, -⟩
    · rw [ha] at he
      cases he
    · rfl

end Obeys

/-! ### What the phases allow -/

/-- The calls that only read what other parts of the system keep. -/
def Reads : FactOp → Prop
  | .recentMessages .. | .getConversation _ | .complete _ => True
  | _ => False

/-- Which calls a phase allows. -/
theorem allows_cases {φ : SavePhase} {o : FactOp} (h : saveProtocol.allows φ o) :
    (φ = .free ∧ Reads o) ∨ (φ = .free ∧ o = .commit) ∨ (∃ text, φ = .free ∧ o = .embed [text]) ∨
    (∃ text v must q, φ = .embedded text [v] ∧ o = .search v 1 must ∧ queryOf v must = some q) ∨
    (∃ text q, φ = .missed text q ∧ o = .uuid4) ∨
    (∃ text q f, φ = .named text q f.qdrantPointId ∧ o = .addFact f ∧ RowOf text q f) ∨
    (∃ text q f, φ = .inserted text q f ∧ o = .commit) ∨
    (∃ text q f p, φ = .committed text q f ∧ o = .upsert p ∧ p.query = q ∧ PointOf f p) ∨
    (φ = .broken ∧ o = .rollback) := by
  cases φ with
  | free =>
    cases o with
    | embed texts =>
      obtain ⟨text, rfl⟩ := h
      exact Or.inr (Or.inr (Or.inl ⟨text, rfl, rfl⟩))
    | commit => exact Or.inr (Or.inl ⟨rfl, rfl⟩)
    | recentMessages convId n => exact Or.inl ⟨rfl, trivial⟩
    | getConversation convId => exact Or.inl ⟨rfl, trivial⟩
    | complete c => exact Or.inl ⟨rfl, trivial⟩
    | search v limit must => exact h.elim
    | uuid4 => exact h.elim
    | addFact f => exact h.elim
    | rollback => exact h.elim
    | upsert p => exact h.elim
  | embedded text vectors =>
    cases o with
    | search v limit must =>
      obtain ⟨rfl, rfl, hquery⟩ := h
      obtain ⟨q, hq⟩ := Option.isSome_iff_exists.mp hquery
      exact Or.inr (Or.inr (Or.inr (Or.inl ⟨text, v, must, q, rfl, rfl, hq⟩)))
    | _ => exact h.elim
  | missed text q =>
    cases o with
    | uuid4 => exact Or.inr (Or.inr (Or.inr (Or.inr (Or.inl ⟨text, q, rfl, rfl⟩))))
    | _ => exact h.elim
  | named text q id =>
    cases o with
    | addFact f =>
      obtain ⟨hrow, rfl⟩ := h
      exact Or.inr (Or.inr (Or.inr (Or.inr (Or.inr (Or.inl ⟨text, q, f, rfl, rfl, hrow⟩)))))
    | _ => exact h.elim
  | inserted text q f =>
    cases o with
    | commit => exact Or.inr (Or.inr (Or.inr (Or.inr (Or.inr (Or.inr (Or.inl ⟨text, q, f, rfl, rfl⟩))))))
    | _ => exact h.elim
  | committed text q f =>
    cases o with
    | upsert p =>
      exact Or.inr
        (Or.inr (Or.inr (Or.inr (Or.inr (Or.inr (Or.inr (Or.inl ⟨text, q, f, p, rfl, rfl, h.1, h.2⟩)))))))
    | _ => exact h.elim
  | broken =>
    cases o with
    | rollback => exact Or.inr (Or.inr (Or.inr (Or.inr (Or.inr (Or.inr (Or.inr (Or.inr ⟨rfl, rfl⟩)))))))
    | _ => exact h.elim

/-! ### What a job is about to upsert -/

/-- The query of the point that the program upserts next, if it makes no call before but those of
inserting the row. -/
def pending {α : Type} : FactProg α → Option FactQuery
  | .call .uuid4 k => pending (k (.ok 0))
  | .call (.addFact _) k => pending (k (.ok ()))
  | .call .commit k => pending (k (.ok ()))
  | .call (.upsert p) _ => some p.query
  | _ => none

/-- The phase says what is pending. -/
theorem pending_eq {α : Type} {φ : SavePhase} {p : FactProg α} (h : p.Obeys saveProtocol SaveEnds φ) :
    pending p = φ.query := by
  induction p generalizing φ with
  | done r =>
    rcases h with rfl | ⟨rfl | ⟨text, vectors, rfl⟩, -⟩
    · rfl
    · rfl
    · rfl
  | call o k ih =>
    obtain ⟨hallows, hok, -⟩ := h
    cases o with
    | recentMessages convId n => cases φ <;> first | rfl | exact hallows.elim
    | getConversation convId => cases φ <;> first | rfl | exact hallows.elim
    | complete c => cases φ <;> first | rfl | exact hallows.elim
    | embed texts => cases φ <;> first | rfl | exact hallows.elim
    | search v limit must => cases φ <;> first | rfl | exact hallows.elim
    | rollback => cases φ <;> first | rfl | exact hallows.elim
    | uuid4 => cases φ <;> exact (ih _ (hok 0 trivial) :)
    | addFact f => cases φ <;> exact (ih _ (hok () trivial) :)
    | commit => cases φ <;> exact (ih _ (hok () trivial) :)
    | upsert p => cases φ <;> first | exact congrArg some hallows.1 | exact hallows.elim

end LegalRag
