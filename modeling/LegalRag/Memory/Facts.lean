import LegalRag.Calls.Service
import LegalRag.Llm.Client
import LegalRag.Ingestion.Parsed
import LegalRag.Lists.Ranked

/-!
# Facts about the user

`save_fact` of `src/memory/long_term.py` and the job `extract_facts` of `src/worker/tasks/memory.py`.  A
job asks the model for facts in the last messages of a conversation; each fact is embedded, looked up
among the facts of the user with the same key, and, if there is no similar one, inserted into Postgres and
then upserted into the collection `memory`.
-/

namespace LegalRag

open Calls Json

/-- A row of `conversations`, with the columns that the job reads. -/
structure JobConversation where
  id : Uuid
  userId : Uuid
  tenantId : Uuid
  deriving DecidableEq, Repr

/-- A row of `user_facts`. -/
structure UserFact where
  userId : Uuid
  tenantId : Uuid
  key : String
  value : String
  confidence : PyFloat
  sourceMessageIds : List Uuid
  qdrantPointId : Uuid
  deriving DecidableEq, Repr

/-- A point of the collection `memory`, with its payload. -/
structure MemoryPoint where
  id : Uuid
  vector : Embedding
  userId : String
  tenantId : String
  key : String
  value : String
  confidence : PyFloat
  deriving DecidableEq, Repr

/-- A `FieldCondition` of the search. -/
inductive MemoryCondition where
  | userId (value : String)
  | key (value : String)
  deriving DecidableEq, Repr

def MemoryCondition.holds (p : MemoryPoint) : MemoryCondition → Bool
  | .userId value => p.userId = value
  | .key value => p.key = value

/-- A hit of a search without payload. -/
structure ScoredId where
  id : Uuid
  score : ℚ
  deriving DecidableEq, Repr

inductive FactOp where
  /-- `ConversationRepo.recent_messages`. -/
  | recentMessages (convId : Uuid) (n : Nat)
  /-- `session.get(Conversation, ..)`. -/
  | getConversation (convId : Uuid)
  /-- `llm.complete`. -/
  | complete (c : CompleteCall)
  /-- `emb.embed`. -/
  | embed (texts : List String)
  /-- `qc.search` on the collection `memory`. -/
  | search (vector : Embedding) (limit : Nat) (must : List MemoryCondition)
  | uuid4
  /-- `UserFactRepo.add`: the INSERT of its flush. -/
  | addFact (f : UserFact)
  | commit
  | rollback
  /-- `qc.upsert` with `wait=True`. -/
  | upsert (p : MemoryPoint)

@[reducible] def FactOp.Resp : FactOp → Type
  | .recentMessages .. => List Message
  | .getConversation _ => Option JobConversation
  | .complete _ => ChatCompletion
  | .embed _ => List Embedding
  | .search .. => List ScoredId
  | .uuid4 => Uuid
  | .addFact _ | .commit | .rollback | .upsert _ => Unit

abbrev FactCalls : Iface := ⟨FactOp, FactOp.Resp⟩

/-- A program of the job. -/
abbrev FactProg (α : Type) := Prog FactCalls LlmErr α

abbrev fact (o : FactCalls.Op) : FactProg (FactCalls.Resp o) := Prog.perform o

/-- A computation that may raise. -/
abbrev raising {α : Type} (r : Except PyErr α) : FactProg α := .done (ofPy r)

/-- `session_scope`. -/
def factScope {α : Type} (body : FactProg α) : FactProg α :=
  tryCatch (do
    let a ← body
    fact .commit
    return a) fun e => do
      fact .rollback
      throw e

/-! ### One fact -/

/-- `_DEDUPE_THRESHOLD`. -/
def dedupeThreshold : ℚ := 92 / 100

/-- The part of `save_fact` after the search. -/
def insertFact (userId tenantId : Uuid) (key value : String) (confidence : PyFloat)
    (sourceIds : List Uuid) (vector : Embedding) : FactProg Bool := do
  let pointId ← fact .uuid4
  factScope (fact (.addFact
    ⟨userId, tenantId, .ofList (key.toList.take 128), value, confidence, sourceIds, pointId⟩))
  fact (.upsert ⟨pointId, vector, toString userId, toString tenantId, key, value, confidence⟩)
  return true

/-- `save_fact`. -/
def saveFact (userId tenantId : Uuid) (key value : String) (confidence : PyFloat)
    (sourceIds : List Uuid) : FactProg Bool := do
  let vectors ← fact (.embed [key ++ ": " ++ value])
  match vectors with
  | [vector] =>
    let hits ← fact (.search vector 1 [.userId (toString userId), .key key])
    if hits.head?.any fun h => dedupeThreshold ≤ h.score then return false
    else insertFact userId tenantId key value confidence sourceIds vector
  | _ => throw ⟨"not enough or too many values to unpack (expected 1)"⟩

/-! ### The job -/

/-- How the job reads the reply of the model. -/
abbrev FactParsers := PyText

/-- `(f.get(k) or "").strip()`. -/
def textField (k : String) (f : PyValue) : Except PyErr String := do
  match ← f.getTruthy k with
  | none => return ""
  | some (.str s) => return stripText s
  | some _ => throw ⟨.attributeError, "object has no attribute 'strip'"⟩

/-- `float(f.get("confidence") or 0.8)`. -/
def confidenceOf (parse : FactParsers) (f : PyValue) : Except PyErr PyFloat := do
  match ← f.getTruthy "confidence" with
  | none => return .finite (8 / 10)
  | some v => v.toFloat parse

/-- The facts in the reply of the model; text that is no JSON has none. -/
def factsOf (parse : FactParsers) (raw : String) : Except PyErr (List PyValue) :=
  match parse.loads raw with
  | .error e => if e.kind = .jsonDecodeError then .ok [] else .error e
  | .ok obj => do
    match ← obj.getTruthy "facts" with
    | none => return []
    | some v => v.iterate

/-- `EXTRACTION_SYSTEM`. -/
def extractionSystem : String :=
  "Bạn là trợ lý trích xuất \"user facts\" từ hội thoại.\n" ++
  "- Chỉ trích xuất sự kiện/sở thích/vai trò/ngữ cảnh ổn định về USER.\n" ++
  "- KHÔNG trích xuất nội dung hội thoại, câu hỏi, hay thông tin tạm thời.\n" ++
  "- Trả JSON: \x7b\"facts\": [\x7b\"key\": \"user.<slug>\", \"value\": \"...\", \"confidence\": 0.0-1.0\x7d]\x7d\n" ++
  "- Nếu không có fact đáng lưu, trả \x7b\"facts\": []\x7d.\n" ++
  "- key dùng tiếng Anh snake_case (e.g. user.role, user.interest, user.preferred_language)."

/-- The `role` column. -/
def Role.text : Role → String
  | .system => "system"
  | .user => "user"
  | .assistant => "assistant"
  | .tool => "tool"

/-- The messages, one a line. -/
def transcript (msgs : List Message) : String :=
  "\n".intercalate (msgs.map fun m => "[" ++ m.role.text ++ "] " ++ m.content)

/-- `transcript[:8000]`. -/
def shownText (msgs : List Message) : List Char := (transcript msgs).toList.take 8000

/-- `source_ids`. -/
def sourceIdsOf (msgs : List Message) : List Uuid := (msgs.filter fun m => m.role = .user).map (·.id)

/-- `{"role": role, "content": content}`. -/
def chatValue (role content : String) : Value := .obj [("content", .str content), ("role", .str role)]

/-- The call of the model. -/
def extractionCall (s : LlmSettings) (msgs : List Message) : CompleteCall where
  clientModel := s.llmModelDefault
  messages := [chatValue "system" extractionSystem, chatValue "user" (.ofList (shownText msgs))]
  model := none
  temperature := floatZero
  maxTokens := none
  responseFormat := some [("type", .str "json_object")]
  tools := none
  toolChoice := none
  useCache := true
  extra := none

/-- The loop over the facts: how many were saved. -/
def saveAll (parse : FactParsers) (conv : JobConversation) (sourceIds : List Uuid) : List PyValue →
    FactProg Nat
  | [] => return 0
  | f :: fs => do
    let key ← raising (textField "key" f)
    let value ← raising (textField "value" f)
    let conf ← raising (confidenceOf parse f)
    if key = "" ∨ value = "" then saveAll parse conv sourceIds fs
    else
      let ok ← saveFact conv.userId conv.tenantId key value conf sourceIds
      let saved ← saveAll parse conv sourceIds fs
      return if ok then saved + 1 else saved

/-- What the job reads of the conversation. -/
def readConversation (convId : Uuid) : FactProg (Option (List Message × JobConversation)) := do
  let msgs ← fact (.recentMessages convId 20)
  if msgs.isEmpty then return none
  else
    match ← fact (.getConversation convId) with
    | none => return none
    | some conv => return some (msgs, conv)

/-- The part of `extract_facts` after the session. -/
def extractFrom (parse : FactParsers) (s : LlmSettings) : Option (List Message × JobConversation) →
    FactProg Nat
  | none => return 0
  | some (msgs, conv) => do
    let resp ← fact (.complete (extractionCall s msgs))
    match resp.choices with
    | [] => throw ⟨"list index out of range"⟩
    | content :: _ =>
      let facts ← raising (factsOf parse (replyBody content))
      saveAll parse conv (sourceIdsOf msgs) facts

/-- `extract_facts`: the number of facts that were saved. -/
def extractFacts (parse : FactParsers) (s : LlmSettings) (convId : Uuid) : FactProg Nat := do
  let found ← factScope (readConversation convId)
  extractFrom parse s found

/-! ### The worker -/

/-- Postgres, the collection `memory`, and how the model and the embedder answer at the moment. -/
structure FactWorld where
  conversations : List JobConversation
  messages : List Message
  userFacts : List UserFact
  /-- What the session of each job has inserted and not committed. -/
  sessions : Nat → List UserFact
  points : List MemoryPoint
  nextUuid : Nat
  complete : CompleteCall → Except LlmErr ChatCompletion
  embed : List String → Except LlmErr (List Embedding)

/-- `ConversationRepo.recent_messages`: the last `n` messages, the oldest first. -/
def lastMessages (convId : Uuid) (n : Nat) (messages : List Message) : List Message :=
  (((messages.filter (·.conversationId = convId)).insertionSort fun a b => b.createdAt ≤ a.createdAt).take
    n).reverse

theorem mem_of_mem_lastMessages {convId : Uuid} {n : Nat} {messages : List Message} {m : Message}
    (h : m ∈ lastMessages convId n messages) : m ∈ messages ∧ m.conversationId = convId := by
  have hmem := (List.mem_insertionSort _).mp (List.mem_of_mem_take (List.mem_reverse.mp h))
  exact ⟨(List.mem_filter.mp hmem).1, by simpa using (List.mem_filter.mp hmem).2⟩

/-- The best hits among the points that pass the filter. -/
def searchMemory (similarity : Embedding → Embedding → ℚ) (points : List MemoryPoint) (vector : Embedding)
    (limit : Nat) (must : List MemoryCondition) : List ScoredId :=
  (Ranked.ranked ScoredId.score
    ((points.filter fun p => must.all (·.holds p)).map fun p => ⟨p.id, similarity vector p.vector⟩)).take
      limit

/-- The points after an upsert. -/
def upserted (p : MemoryPoint) (points : List MemoryPoint) : List MemoryPoint :=
  points.filter (·.id ≠ p.id) ++ [p]

/-- The reply to a call of the job `pid`, and what it changes. -/
def factReply (similarity : Embedding → Embedding → ℚ) (pid : Nat) :
    (o : FactCalls.Op) → FactWorld → Except LlmErr (FactCalls.Resp o) × FactWorld
  | .recentMessages convId n, w => (.ok (lastMessages convId n w.messages), w)
  | .getConversation convId, w => (.ok (w.conversations.find? (·.id = convId)), w)
  | .complete c, w => (w.complete c, w)
  | .embed texts, w => (w.embed texts, w)
  | .search vector limit must, w => (.ok (searchMemory similarity w.points vector limit must), w)
  | .uuid4, w => (.ok w.nextUuid, { w with nextUuid := w.nextUuid + 1 })
  | .addFact f, w =>
    (.ok (), { w with sessions := Function.update w.sessions pid (w.sessions pid ++ [f]) })
  | .commit, w =>
    (.ok (), { w with
      userFacts := w.userFacts ++ w.sessions pid
      sessions := Function.update w.sessions pid [] })
  | .rollback, w => (.ok (), { w with sessions := Function.update w.sessions pid [] })
  | .upsert p, w => (.ok (), { w with points := upserted p w.points })

/-- What happens besides the jobs: the conversations go on, and the servers come to answer in another way.
-/
inductive FactEnv where
  | chat (conversations : List JobConversation) (messages : List Message)
  | servers (complete : CompleteCall → Except LlmErr ChatCompletion)
      (embed : List String → Except LlmErr (List Embedding))

def FactEnv.step : FactEnv → FactWorld → FactWorld
  | .chat conversations messages, w => { w with conversations := conversations, messages := messages }
  | .servers complete embed, w => { w with complete := complete, embed := embed }

/-- Any number of `extract_facts` jobs at once. -/
def factService (similarity : Embedding → Embedding → ℚ) (parse : FactParsers) (s : LlmSettings) :
    Service FactCalls LlmErr FactWorld Uuid FactEnv Nat where
  program convId := extractFacts parse s convId
  enter pid w := { w with sessions := Function.update w.sessions pid [] }
  handle pid _ := factReply similarity pid
  env e w := some (e.step w)

end LegalRag
