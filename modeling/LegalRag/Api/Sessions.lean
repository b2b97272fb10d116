import LegalRag.Api.ChatPhases
import LegalRag.Worker.Delivery

/-!
# What a session holds

A call changes the sessions of its own request only (`apiHandler_others`), and only the statements that
load, insert or commit change what a session holds (`apiHandler_content`).  `requestPhases` are the phases
of any request of the API process: those of a chat, or the one phase of an upload, which touches neither
conversations nor messages nor buffers.
-/

namespace LegalRag

open Calls Prog Service

/-- What a session has loaded and has not committed. -/
def Session.content (s : Session) : Option Conversation × List Message × List Document :=
  (s.conv, s.newMessages, s.newDocuments)

/-- The rows of `conversations` after the commit of a session that has loaded `conv`. -/
def setCounts (conv : Option Conversation) (rows : List Conversation) : List Conversation :=
  match conv with
  | some c =>
    rows.map fun row => if row.id = c.id then { row with messageCount := c.messageCount } else row
  | none => rows

/-- The statements that change what a session holds. -/
def Transactional : ApiOp → Prop
  | .getConversation .. | .addMessage .. | .createDocument .. | .commit _ => True
  | _ => False

section Calls

variable {rid : Nat} {agent : AgentReplies} {w : ApiWorld}

theorem sessions_setSession_of_ne {q : Nat} (h : q ≠ rid) (ref : SessionRef) (f : Session → Session) :
    (w.setSession rid ref f).sessions q = w.sessions q :=
  Function.update_of_ne h _ _

private theorem sessions_touch_of_ne {q : Nat} (h : q ≠ rid) (ref : SessionRef) :
    (w.touch rid ref).sessions q = w.sessions q :=
  sessions_setSession_of_ne h ref _

theorem sessions_setSession (ref ref' : SessionRef) (f : Session → Session) :
    (w.setSession rid ref f).sessions rid ref' =
      if ref' = ref then f (w.sessions rid ref) else w.sessions rid ref' := by
  show Function.update w.sessions rid (Function.update (w.sessions rid) ref (f (w.sessions rid ref)))
    rid ref' = _
  rw [Function.update_self]
  by_cases h : ref' = ref
  · subst h
    rw [Function.update_self, if_pos rfl]
  · rw [Function.update_of_ne h, if_neg h]

theorem content_touch (ref : SessionRef) (q : Nat) (ref' : SessionRef) :
    ((w.touch rid ref).sessions q ref').content = (w.sessions q ref').content := by
  by_cases hq : q = rid
  · subst hq
    unfold ApiWorld.touch
    rw [sessions_setSession]
    by_cases h : ref' = ref
    · subst h
      rw [if_pos rfl]
      rfl
    · rw [if_neg h]
  · rw [sessions_touch_of_ne hq]

/-- The session after `ConversationRepo.get`. -/
def ApiWorld.loadedSession (convId userId : Uuid) (w : ApiWorld) (s : Session) : Session :=
  { s with conv := (w.conversations.find? fun c => c.id = convId ∧ c.userId = userId).or s.conv }

/-- The session after `add_message`. -/
def ApiWorld.insertedSession (rid : Nat) (ref : SessionRef) (m : NewMessage) (w : ApiWorld)
    (s : Session) : Session :=
  { s with
    conv := ((w.loadConversation rid ref m.conversationId).map fun c =>
      { c with messageCount := c.messageCount + 1 }).or s.conv
    newMessages := s.newMessages ++ [w.messageRow rid ref m] }

theorem getConversation_world (ref : SessionRef) (convId userId : Uuid) :
    (apiHandler rid agent (.getConversation ref convId userId) w).2 =
      ((w.touch rid ref).setSession rid ref (w.loadedSession convId userId)).tick := rfl

theorem addMessage_world (ref : SessionRef) (m : NewMessage) :
    (apiHandler rid agent (.addMessage ref m) w).2 =
      ApiWorld.tick { (w.touch rid ref).setSession rid ref (w.insertedSession rid ref m) with
        nextUuid := w.nextUuid + 1 } :=
  rfl

theorem content_setSession (ref ref' : SessionRef) (f : Session → Session) :
    (((w.touch rid ref).setSession rid ref f).sessions rid ref').content =
      if ref' = ref then (f ((w.touch rid ref).sessions rid ref)).content else
          (w.sessions rid ref').content := by
  rw [sessions_setSession]
  by_cases h : ref' = ref
  · rw [if_pos h, if_pos h]
  · rw [if_neg h, if_neg h, content_touch]

/-- A call leaves the sessions of the other requests alone. -/
theorem apiHandler_others {q : Nat} (h : q ≠ rid) (agent : AgentReplies) (o : ApiOp) (w : ApiWorld) :
    (apiHandler rid agent o w).2.sessions q = w.sessions q := by
  have hset : ∀ ref f, ((w.touch rid ref).setSession rid ref f).sessions q = w.sessions q := fun ref f =>
    (sessions_setSession_of_ne h ref f).trans (sessions_touch_of_ne h ref)
  show (apiReply rid agent o w).2.sessions q = w.sessions q
  cases o with
  | getConversation ref convId userId =>
    exact hset ref (w.loadedSession convId userId)
  | addMessage ref m => exact hset ref (w.insertedSession rid ref m)
  | recentMessages ref convId n => exact sessions_touch_of_ne h ref
  | byChecksum ref tenantId checksum => exact sessions_touch_of_ne h ref
  | flush ref => exact sessions_touch_of_ne h ref
  | createDocument ref d =>
    simp only [apiReply]
    split
    · exact sessions_touch_of_ne h ref
    · exact hset ref fun s => { s with newDocuments := s.newDocuments ++ [w.documentRow rid ref d] }
  | commit ref =>
    simp only [apiReply]
    split
    · exact @sessions_setSession_of_ne rid w q h ref fun _ => Session.fresh
    · exact @sessions_setSession_of_ne rid (w.applyCommit rid ref) q h ref fun s =>
        { s with begun := none, newMessages := [], newDocuments := [] }
  | enqueueJob function arg =>
    simp only [apiReply]
    split <;> rfl
  | _ => rfl

/-- A call that is not transactional leaves what the sessions hold, the messages and the conversations
alone. -/
theorem apiHandler_content {o : ApiOp} (ho : ¬ Transactional o) (agent : AgentReplies) (w : ApiWorld) :
    (∀ q ref, ((apiHandler rid agent o w).2.sessions q ref).content = (w.sessions q ref).content) ∧
      (apiHandler rid agent o w).2.messages = w.messages ∧
      (apiHandler rid agent o w).2.conversations = w.conversations := by
  show (∀ q ref, ((apiReply rid agent o w).2.sessions q ref).content = (w.sessions q ref).content) ∧
    (apiReply rid agent o w).2.messages = w.messages ∧ (apiReply rid agent o w).2.conversations =
    w.conversations
  cases o with
  | getConversation ref convId userId => exact absurd trivial ho
  | addMessage ref m => exact absurd trivial ho
  | createDocument ref d => exact absurd trivial ho
  | commit ref => exact absurd trivial ho
  | recentMessages ref convId n => exact ⟨fun q ref' => content_touch ref q ref', rfl, rfl⟩
  | byChecksum ref tenantId checksum => exact ⟨fun q ref' => content_touch ref q ref', rfl, rfl⟩
  | flush ref => exact ⟨fun q ref' => content_touch ref q ref', rfl, rfl⟩
  | enqueueJob function arg =>
    simp only [apiReply]
    split <;> exact ⟨fun _ _ => rfl, rfl, rfl⟩
  | _ => exact ⟨fun _ _ => rfl, rfl, rfl⟩

/-- The buffers change by pipelines only. -/
theorem apiHandler_buffers {o : ApiOp} (ho : ∀ cmds, o ≠ .pipeline cmds) (agent : AgentReplies)
    (w : ApiWorld) : (apiHandler rid agent o w).2.buffers = w.buffers := by
  show (apiReply rid agent o w).2.buffers = w.buffers
  cases o with
  | pipeline cmds => exact absurd rfl (ho cmds)
  | createDocument ref d => simp only [apiReply]; split <;> rfl
  | commit ref => simp only [apiReply]; split <;> rfl
  | enqueueJob function arg => simp only [apiReply]; split <;> rfl
  | _ => rfl

/-- A session that holds no document commits what it holds. -/
theorem commit_of_content {ref : SessionRef} {conv : Option Conversation} {ms : List Message}
    (h : (w.sessions rid ref).content = (conv, ms, [])) (agent : AgentReplies) :
    (apiHandler rid agent (.commit ref) w).1 = .ok () ∧
      (apiHandler rid agent (.commit ref) w).2.messages = w.messages ++ ms ∧
      (apiHandler rid agent (.commit ref) w).2.conversations = setCounts conv w.conversations ∧
      ∀ ref', ((apiHandler rid agent (.commit ref) w).2.sessions rid ref').content =
        if ref' = ref then (conv, [], []) else (w.sessions rid ref').content := by
  simp only [Session.content, Prod.mk.injEq] at h
  obtain ⟨hconv, hms, hdocs⟩ := h
  have heq : apiHandler rid agent (.commit ref) w =
    (.ok (), ((w.applyCommit rid ref).setSession rid ref fun s =>
      { s with begun := none, newMessages := [], newDocuments := [] }).tick) := by
    simp only [apiHandler, apiReply]
    rw [if_neg]
    rw [hdocs]
    simp
  rw [heq]
  refine ⟨rfl, ?_, ?_, ?_⟩
  · show w.messages ++ (w.sessions rid ref).newMessages = w.messages ++ ms
    rw [hms]
  · show (w.applyCommit rid ref).conversations = _
    simp only [ApiWorld.applyCommit, hconv]
    cases conv with
    | none => rfl
    | some c => rfl
  · intro ref'
    show (((w.applyCommit rid ref).setSession rid ref fun s =>
      { s with begun := none, newMessages := [], newDocuments := [] }).sessions rid ref').content = _
    rw [sessions_setSession]
    by_cases hr : ref' = ref
    · subst hr
      rw [if_pos rfl, if_pos rfl]
      show ((w.sessions rid ref').conv, [], []) = _
      rw [hconv]
    · rw [if_neg hr, if_neg hr]
      rfl

end Calls

/-! ### The phases of any request -/

/-- The calls of an upload. -/
def UploadOp : ApiOp → Prop
  | .getArqPool | .byChecksum .. | .uuid4 | .putObject .. | .createDocument .. | .flush _ | .commit _
  | .enqueueJob .. => True
  | _ => False

section Uploads

variable {sha256 : List UInt8 → String} {cfg : UploadSettings} {c : UploadCall}

private theorem uploadFile_only (up : UploadFile) : (uploadFile sha256 cfg c up).Only UploadOp := by
  unfold uploadFile
  cases checkFile cfg up with
  | error e => exact only_done _
  | ok mime =>
    refine only_bind (only_perform trivial) fun found => ?_
    cases found with
    | some existing => exact only_done _
    | none =>
      refine only_bind (only_perform trivial) fun docId => ?_
      refine only_bind (only_perform trivial) fun _ => ?_
      refine only_bind (only_perform trivial) fun row => ?_
      exact only_bind (only_perform trivial) fun _ => only_done _

private theorem uploadAll_only (ups : List UploadFile) : (uploadAll sha256 cfg c ups).Only UploadOp := by
  induction ups with
  | nil => exact only_done _
  | cons up ups ih => exact only_bind (uploadFile_only up) fun _ => only_bind ih fun _ => only_done _

private theorem enqueueAll_only (ids : List Uuid) : (enqueueAll ids).Only UploadOp := by
  induction ids with
  | nil => exact only_done _
  | cons id ids ih => exact only_bind (only_perform trivial) fun _ => only_bind ih fun _ => only_done _

private theorem uploadFiles_only : (uploadFiles sha256 cfg c).Only UploadOp := by
  unfold uploadFiles
  split
  · exact only_done _
  · split
    · exact only_done _
    · refine only_bind (only_perform trivial) fun _ => only_bind (uploadAll_only c.files) fun _ => ?_
      exact only_bind (only_perform trivial) fun _ => only_bind (enqueueAll_only _) fun _ => only_done _

end Uploads

/-- What a request may call. -/
def requestPhases (s : BufferSettings) : ApiRequest → Protocol ApiCalls ApiErr ChatPhase
  | .upload _ => .only UploadOp
  | .chat c _ => chatPhases s c

/-- How a request ends. -/
def RequestEnds : ApiRequest → ChatPhase → Except ApiErr ApiReply → Prop
  | .upload _, _, _ => True
  | .chat .., φ, r => ChatEnds φ r

/-- A request keeps to its phases. -/
theorem request_phases (cfg : ApiSettings) (worker : WorkerSettings) (req : ApiRequest) :
    ((apiService cfg worker).program req).Obeys (requestPhases cfg.buffer req) (RequestEnds req) .start := by
  cases req with
  | upload c =>
    show (ApiReply.uploaded <$> uploadFiles cfg.sha256 cfg.upload c).Obeys (.only UploadOp) _ _
    rw [map_eq_pure_bind]
    exact obeys_only (only_bind uploadFiles_only fun _ => only_done _) _
  | chat c agent =>
    show ((fun _ => ApiReply.streamed) <$> chatStream cfg.buffer c).Obeys (chatPhases cfg.buffer c) _ _
    rw [map_eq_pure_bind]
    refine obeys_bind (chatStream_phases.mono fun φ r h => ?_)
    cases r with
    | error e => exact ⟨h.1, nofun⟩
    | ok a => exact ⟨h.1, fun _ _ => h.2 a rfl⟩

end LegalRag
