import LegalRag.Api.Calls
import LegalRag.Calls.Service
import LegalRag.Memory.History
import Mathlib.Data.List.Sort
import Mathlib.Data.Nat.Pairing

/-!
# The routes of conversations

`src/api/routes/conversations.py` over `src/db/repositories/conversation.py`, with all columns that the
routes show, and what `chat_stream` does to the two tables: the transaction of the question, and that of
the answer if the agent comes to one.

The requests run in sessions of Postgres: a statement sees the committed rows and those of its own
transaction, `now()` is the time at which the transaction began, and a transaction takes effect at its
commit.  An `uuid4()` is drawn from a supply of the user of the request, so that none is drawn twice.
-/

namespace LegalRag

open Calls

/-- A row of `conversations`. -/
structure ConversationRow extends Conversation where
  tenantId : Uuid
  title : String
  archived : Bool
  lastMessageAt : Option Nat
  createdAt : Nat
  updatedAt : Nat
  deriving DecidableEq, Repr

/-- `ConversationOut`. -/
structure ConversationOut where
  id : Uuid
  title : String
  messageCount : Nat
  lastMessageAt : Option Nat
  createdAt : Nat
  updatedAt : Nat
  deriving DecidableEq, Repr

/-- The response for a row. -/
def ConversationRow.out (c : ConversationRow) : ConversationOut :=
  ⟨c.id, c.title, c.messageCount, c.lastMessageAt, c.createdAt, c.updatedAt⟩

/-! ### The calls -/

inductive ConvOp where
  /-- A session is opened. -/
  | openSession (s : SessionRef)
  /-- `ConversationRepo.create`: the INSERT of its flush. -/
  | create (s : SessionRef) (tenantId userId : Uuid) (title : String)
  | get (s : SessionRef) (convId userId : Uuid)
  | listForUser (s : SessionRef) (userId : Uuid) (limit offset : Nat)
  | archive (s : SessionRef) (convId userId : Uuid)
  /-- `ConversationRepo.add_message`: the INSERT and the UPDATE of its flush. -/
  | addMessage (s : SessionRef) (m : NewMessage)
  | messages (s : SessionRef) (convId : Uuid) (limit : Nat)
  | commit (s : SessionRef)
  deriving DecidableEq, Repr

@[reducible] def ConvOp.Resp : ConvOp → Type
  | .create .. => ConversationRow
  | .get .. => Option ConversationRow
  | .listForUser .. => List ConversationRow
  | .addMessage .. => Message
  | .messages .. => List Message
  | .openSession _ | .archive .. | .commit _ => Unit

abbrev ConvCalls : Iface := ⟨ConvOp, ConvOp.Resp⟩

abbrev ConvProg (α : Type) := Prog ConvCalls ApiErr α

/-- A statement of a session. -/
abbrev conv (o : ConvCalls.Op) : ConvProg (ConvCalls.Resp o) := Prog.perform o

/-! ### The routes -/

/-- `create_conversation`; a title of more than 255 characters does not pass the schema. -/
def createConversation (userId tenantId : Uuid) (title : Option String) : ConvProg ConversationOut := do
  if title.any fun t => 255 < t.length then throw (.http 422 "title")
  else
    conv (.openSession .request)
    let c ← conv (.create .request tenantId userId (orText title "New conversation"))
    conv (.commit .request)
    return c.out

/-- `list_conversations`, with the bounds of its query parameters. -/
def listConversations (userId : Uuid) (limit offset : Int) : ConvProg (List ConversationOut) := do
  if limit < 1 ∨ 200 < limit then throw (.http 422 "limit")
  else if offset < 0 then throw (.http 422 "offset")
  else
    conv (.openSession .request)
    let items ← conv (.listForUser .request userId limit.toNat offset.toNat)
    return items.map ConversationRow.out

/-- `list_messages`. -/
def listConvMessages (userId convId : Uuid) : ConvProg (List MessageOut) := do
  conv (.openSession .request)
  match ← conv (.get .request convId userId) with
  | none => throw (.http 404 "conversation not found")
  | some _ =>
    let msgs ← conv (.messages .request convId 200)
    return msgs.map Message.out

/-- `archive_conversation`. -/
def archiveConversation (userId convId : Uuid) : ConvProg Unit := do
  conv (.openSession .request)
  conv (.archive .request convId userId)
  conv (.commit .request)

/-- What the agent has come to when the answer is stored. -/
structure ChatAnswer where
  content : String
  citations : List Citation
  tokensIn : Option Nat
  tokensOut : Option Nat
  deriving DecidableEq, Repr

/-- The statements of `chat_stream` on the tables of conversations. -/
def chatRows (c : ChatCall) (answer : Option ChatAnswer) : ConvProg Unit := do
  conv (.openSession .request)
  match ← conv (.get .request c.convId c.userId) with
  | none => throw (.http 404 "conversation not found")
  | some _ =>
    let _ ← conv (.addMessage .request ⟨c.convId, .user, c.message, [], none, none⟩)
    conv (.commit .request)
    match answer with
    | none => return ()
    | some a =>
      conv (.openSession .scope)
      let _ ← conv (.addMessage .scope ⟨c.convId, .assistant, a.content, a.citations, a.tokensIn, a.tokensOut⟩)
      conv (.commit .scope)

/-- The requests, each by a user that `current_user` has accepted. -/
inductive ConvRequest where
  | create (userId tenantId : Uuid) (title : Option String)
  | list (userId : Uuid) (limit offset : Int)
  | messages (userId convId : Uuid)
  | archive (userId convId : Uuid)
  | chat (c : ChatCall) (answer : Option ChatAnswer)
  deriving DecidableEq, Repr

/-- The user of a request. -/
def ConvRequest.userId : ConvRequest → Uuid
  | .create userId .. | .list userId .. | .messages userId _ | .archive userId _ => userId
  | .chat c _ => c.userId

inductive ConvReply where
  | created (c : ConversationOut)
  | conversations (cs : List ConversationOut)
  | messages (ms : List MessageOut)
  | archived
  | answered
  deriving DecidableEq, Repr

/-- The program of a request. -/
def ConvRequest.program : ConvRequest → ConvProg ConvReply
  | .create userId tenantId title => .created <$> createConversation userId tenantId title
  | .list userId limit offset => .conversations <$> listConversations userId limit offset
  | .messages userId convId => .messages <$> listConvMessages userId convId
  | .archive userId convId => (fun _ => .archived) <$> archiveConversation userId convId
  | .chat c answer => (fun _ => .answered) <$> chatRows c answer

/-! ### Postgres -/

/-- The two tables. -/
structure ConvTables where
  conversations : List ConversationRow
  messages : List Message

/-- A statement that writes. -/
inductive ConvStmt where
  | insertConversation (c : ConversationRow)
  | insertMessage (m : Message)
  | updateCounters (convId : Uuid) (messageCount lastMessageAt updatedAt : Nat)
  | setArchived (convId userId : Uuid) (updatedAt : Nat)
  deriving DecidableEq, Repr

/-- What a statement does to a row. -/
def ConvStmt.update : ConvStmt → ConversationRow → ConversationRow
  | .updateCounters convId n at' updatedAt, c =>
    if c.id = convId then { c with messageCount := n, lastMessageAt := some at', updatedAt := updatedAt }
    else c
  | .setArchived convId userId updatedAt, c =>
    if c.id = convId ∧ c.userId = userId then { c with archived := true, updatedAt := updatedAt } else c
  | .insertConversation _, c | .insertMessage _, c => c

/-- The effect of a statement. -/
def ConvStmt.apply (t : ConvTables) : ConvStmt → ConvTables
  | .insertConversation c => { t with conversations := t.conversations ++ [c] }
  | .insertMessage m => { t with messages := t.messages ++ [m] }
  | st => { t with conversations := t.conversations.map st.update }

/-- A session: when its transaction began, the rows it has loaded and the statements of its transaction. -/
structure ConvSession where
  begun : Option Nat
  loaded : List ConversationRow
  pending : List ConvStmt

def ConvSession.fresh : ConvSession := ⟨none, [], []⟩

/-- Postgres, the sessions of each user's requests by number, how many ids each user's requests have
drawn, and the time. -/
structure ConvWorld where
  tables : ConvTables
  sessions : Uuid → Nat → SessionRef → ConvSession
  drawn : Uuid → Nat
  clock : Nat

namespace ConvWorld

variable (u : Uuid) (pid : Nat) (ref : SessionRef) (w : ConvWorld)

def setSession (s : ConvSession) : ConvWorld :=
  { w with
    sessions := Function.update w.sessions u
      (Function.update (w.sessions u) pid (Function.update (w.sessions u pid) ref s)) }

/-- `now()`: the time of the session's transaction, which begins now unless it has begun. -/
def now : Nat := (w.sessions u pid ref).begun.getD w.clock

/-- What the session sees. -/
def visible : ConvTables := (w.sessions u pid ref).pending.foldl ConvStmt.apply w.tables

/-- The session after a statement that reads. -/
def touched : ConvSession := { w.sessions u pid ref with begun := some (w.now u pid ref) }

/-- The session after a statement that writes. -/
def wrote (st : ConvStmt) : ConvSession :=
  { w.touched u pid ref with pending := (w.sessions u pid ref).pending ++ [st] }

/-- `uuid4()`. -/
def uuid4 : Uuid := Nat.pair u (w.drawn u)

def drew : ConvWorld := { w with drawn := Function.update w.drawn u (w.drawn u + 1) }

/-- The row of the identity map of the session, or else the row that it sees. -/
def lookup (convId : Uuid) : Option ConversationRow :=
  ((w.sessions u pid ref).loaded.find? (·.id = convId)).or
    ((w.visible u pid ref).conversations.find? (·.id = convId))

end ConvWorld

/-- `ORDER BY updated_at DESC`. -/
def newestUpdated (rows : List ConversationRow) : List ConversationRow :=
  rows.insertionSort fun a b => b.updatedAt ≤ a.updatedAt

/-- The conversations that `list_for_user` cuts a page from. -/
def listedRows (userId : Uuid) (rows : List ConversationRow) : List ConversationRow :=
  newestUpdated (rows.filter fun c => c.userId = userId ∧ ¬ c.archived)

/-- `ORDER BY created_at ASC`. -/
def oldestFirst (ms : List Message) : List Message := ms.insertionSort fun a b => a.createdAt ≤ b.createdAt

/-- The reply to a statement of request `pid` of the user `u`, and what it changes. -/
def convReply (u : Uuid) (pid : Nat) : (o : ConvCalls.Op) → ConvWorld →
    Except ApiErr (ConvCalls.Resp o) × ConvWorld
  | .openSession ref, w => (.ok (), w.setSession u pid ref ConvSession.fresh)
  | .create ref tenantId userId title, w =>
    let row : ConversationRow :=
      { id := w.uuid4 u, userId := userId, summary := none, messageCount := 0, tenantId := tenantId,
        title := title, archived := false, lastMessageAt := none, createdAt := w.now u pid ref,
        updatedAt := w.now u pid ref }
    (.ok row, (w.setSession u pid ref (w.wrote u pid ref (.insertConversation row))).drew u)
  | .get ref convId userId, w =>
    let found := (w.visible u pid ref).conversations.find? fun c => c.id = convId ∧ c.userId = userId
    (.ok found, w.setSession u pid ref
      { w.touched u pid ref with loaded := (w.sessions u pid ref).loaded ++ found.toList })
  | .listForUser ref userId limit offset, w =>
    (.ok (((listedRows userId (w.visible u pid ref).conversations).drop offset).take limit),
      w.setSession u pid ref (w.touched u pid ref))
  | .archive ref convId userId, w =>
    (.ok (), w.setSession u pid ref (w.wrote u pid ref (.setArchived convId userId (w.now u pid ref))))
  | .addMessage ref m, w =>
    match w.lookup u pid ref m.conversationId with
    | none => (.error (.other "ForeignKeyViolation"), w.setSession u pid ref (w.touched u pid ref))
    | some c =>
      let row : Message := { m with id := w.uuid4 u, createdAt := w.now u pid ref }
      let count := ConvStmt.updateCounters c.id (c.messageCount + 1) w.clock (w.now u pid ref)
      -- the row in the identity map is the one that the flush has written
      (.ok row, ((w.setSession u pid ref { w.touched u pid ref with
        loaded := (w.sessions u pid ref).loaded.filter (·.id ≠ c.id) ++ [count.update c]
        pending := (w.sessions u pid ref).pending ++ [.insertMessage row, count] })).drew u)
  | .messages ref convId limit, w =>
    (.ok ((oldestFirst ((w.visible u pid ref).messages.filter (·.conversationId = convId))).take limit),
      w.setSession u pid ref (w.touched u pid ref))
  | .commit ref, w =>
    (.ok (), ({ w with tables := w.visible u pid ref } : ConvWorld).setSession u pid ref
      { w.sessions u pid ref with begun := none, pending := [] })

/-- Time passes. -/
inductive ConvEnv where
  | tick
  deriving DecidableEq, Repr

/-- The requests, interleaved statement by statement. -/
def convService : Service ConvCalls ApiErr ConvWorld ConvRequest ConvEnv ConvReply where
  program := ConvRequest.program
  enter _ w := w
  handle pid r := convReply r.userId pid
  env
    | .tick, w => some { w with clock := w.clock + 1 }

abbrev ConvState := Service.State ConvCalls ApiErr ConvWorld ConvRequest ConvReply

abbrev ConvLabel := Service.Label ApiErr ConvRequest ConvEnv

/-- No conversation, no request. -/
def ConvWorld.blank : ConvWorld := ⟨⟨[], []⟩, fun _ _ _ => .fresh, fun _ => 0, 0⟩

end LegalRag
