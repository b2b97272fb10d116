import LegalRag.Api.World
import LegalRag.Calls.Effects
import LegalRag.Memory.LogCache

/-!
# The buffer as a trimmed copy of the messages

`Views` reads a world as a log and its trimmed copy: the messages of one conversation in Postgres, and its
buffer in Redis.  What the calls of a chat request do to the two is what the operations of `LogCache` do:
`Views.afterStore` for a message that is inserted and committed, `Views.append` and `Views.warmup` for the
two pipelines, `Views.of_frame_eq` for the calls that touch neither.
-/

namespace LegalRag

open Calls Redis

/-- The messages of a conversation, the oldest first. -/
def history (convId : Uuid) (w : ApiWorld) : List ChatMessage :=
  ((w.messages.filter (·.conversationId = convId)).insertionSort fun a b => a.createdAt ≤ b.createdAt).map
    (·.toChat)

/-- What `get_buffer` returns. -/
def bufferOf (convId : Uuid) (w : ApiWorld) : List ChatMessage :=
  lrange 0 (-1) (w.buffers (bufKey convId))

/-- The world shows the log and the buffer of `st`. -/
structure Views (convId : Uuid) (w : ApiWorld) (st : LogCache.State ChatMessage) : Prop where
  ordered : (w.messages.filter (·.conversationId = convId)).Pairwise fun a b => a.createdAt < b.createdAt
  past : ∀ m ∈ w.messages, m.conversationId = convId → m.createdAt < w.clock
  stored : (w.messages.filter (·.conversationId = convId)).map (·.toChat) = st.stored
  buf : w.buffers (bufKey convId) = st.buf

variable {convId : Uuid} {w : ApiWorld} {st : LogCache.State ChatMessage}

theorem Views.history_eq (h : Views convId w st) : history convId w = st.stored := by
  rw [history, ← h.stored, (h.ordered.imp Nat.le_of_lt).insertionSort_eq]

theorem Views.bufferOf_eq (h : Views convId w st) : bufferOf convId w = st.buf := by
  rw [bufferOf, lrange_all, h.buf]

theorem Views.of_frame (h : Views convId w st) {w' : ApiWorld} (hm : w'.messages = w.messages)
    (hb : w'.buffers = w.buffers) (hc : w.clock ≤ w'.clock) : Views convId w' st where
  ordered := hm ▸ h.ordered
  past m hmem he := Nat.lt_of_lt_of_le (h.past m (hm ▸ hmem) he) hc
  stored := hm ▸ h.stored
  buf := hb ▸ h.buf

/-- Sorting an increasing list by decreasing times reverses it. -/
theorem insertionSort_newest {ms : List Message} (h : ms.Pairwise fun a b => a.createdAt < b.createdAt) :
    (ms.insertionSort fun a b => b.createdAt ≤ a.createdAt) = ms.reverse := by
  induction ms with
  | nil => rfl
  | cons m ms ih =>
    obtain ⟨hm, hms⟩ := List.pairwise_cons.mp h
    rw [List.insertionSort_cons, ih hms, List.reverse_cons]
    have hlast : ∀ l : List Message, (∀ b ∈ l, m.createdAt < b.createdAt) →
        l.orderedInsert (fun a b => b.createdAt ≤ a.createdAt) m = l ++ [m] := by
      intro l hl
      induction l with
      | nil => rfl
      | cons b l ihl =>
        have hb := hl b (by simp)
        rw [List.orderedInsert_cons, if_neg (by omega), ihl fun c hc => hl c (by simp [hc]), List.cons_append]
    exact hlast _ fun b hb => hm b (List.mem_reverse.mp hb)

/-- What `recent_messages` returns in a session that has nothing to commit. -/
theorem Views.recent (h : Views convId w st) {rid : Nat} {ref : SessionRef}
    (hs : (w.sessions rid ref).newMessages = []) (n : Nat) :
    (((w.newestFirst rid ref convId).take n).reverse.map (·.toChat)) = st.stored.rtake n := by
  rw [ApiWorld.newestFirst, hs, List.append_nil, insertionSort_newest h.ordered,
    ← List.rtake_eq_reverse_take_reverse, map_rtake, h.stored]

/-! ### The calls of a turn -/

/-- The calls that touch neither a message, nor a buffer, nor a session. -/
def Quiet : ApiOp → Prop
  | .lrange .. | .retrieveUserFacts .. | .retrieveAndRerank .. | .completeStream _ | .send
      _ | .enqueueJob ..
  | .getArqPool => True
  | _ => False

/-- What quiet calls leave as it is. -/
def frame (w : ApiWorld) : List Message × (String → List ChatMessage) × (Nat → SessionRef → Session) :=
  (w.messages, w.buffers, w.sessions)

theorem frame_quiet (rid : Nat) (agent : AgentReplies) (o : ApiCalls.Op) (w : ApiWorld) (ho : Quiet o) :
    frame (apiHandler rid agent o w).2 = frame w := by
  cases o with
  | enqueueJob f a => simp only [apiHandler, apiReply]; split <;> rfl
  | lrange _ _ _ => rfl
  | retrieveUserFacts _ _ _ => rfl
  | retrieveAndRerank _ _ _ _ _ _ => rfl
  | completeStream _ => rfl
  | send _ => rfl
  | getArqPool => rfl
  | _ => exact ho.elim

theorem clock_le (rid : Nat) (agent : AgentReplies) (o : ApiCalls.Op) (w : ApiWorld) :
    w.clock ≤ (apiHandler rid agent o w).2.clock := by
  have hreply : (apiReply rid agent o w).2.clock = w.clock := by
    cases o with
    | enqueueJob f a => simp only [apiReply]; split <;> rfl
    | createDocument ref d => simp only [apiReply]; split <;> rfl
    | commit ref => simp only [apiReply]; split <;> rfl
    | _ => rfl
  simp only [apiHandler, ApiWorld.tick, hreply]
  exact Nat.le_succ _

theorem Views.of_frame_eq (h : Views convId w st) {w' : ApiWorld} (hf : frame w' = frame w)
    (hc : w.clock ≤ w'.clock) : Views convId w' st := by
  simp only [frame, Prod.mk.injEq] at hf
  exact h.of_frame hf.1 hf.2.1 hc

section Store

variable {rid : Nat} {agent : AgentReplies} {ref : SessionRef} {m : NewMessage}

/-- The world after a message was inserted and committed. -/
def afterStore (rid : Nat) (agent : AgentReplies) (ref : SessionRef) (m : NewMessage)
    (w : ApiWorld) : ApiWorld :=
  (apiHandler rid agent (.commit ref) (apiHandler rid agent (.addMessage ref m) w).2).2

theorem commit_reply (rid : Nat) (agent : AgentReplies) (m : NewMessage)
    (hdocs : (w.sessions rid ref).newDocuments = []) :
    (apiHandler rid agent (.commit ref) (apiHandler rid agent (.addMessage ref m) w).2).1 = .ok () := by
  simp [apiHandler, apiReply, ApiWorld.tick, ApiWorld.setSession, ApiWorld.touch, hdocs]

theorem afterStore_messages (hnew : (w.sessions rid ref).newMessages = [])
    (hdocs : (w.sessions rid ref).newDocuments = []) :
    (afterStore rid agent ref m w).messages = w.messages ++ [w.messageRow rid ref m] := by
  simp [afterStore, apiHandler, apiReply, ApiWorld.tick, ApiWorld.setSession, ApiWorld.touch,
    ApiWorld.applyCommit, hdocs, hnew]

private theorem afterStore_buffers (hdocs : (w.sessions rid ref).newDocuments = []) :
    (afterStore rid agent ref m w).buffers = w.buffers := by
  simp [afterStore, apiHandler, apiReply, ApiWorld.tick, ApiWorld.setSession, ApiWorld.touch,
    ApiWorld.applyCommit, hdocs]

private theorem afterStore_clock (hdocs : (w.sessions rid ref).newDocuments = []) :
    (afterStore rid agent ref m w).clock = w.clock + 2 := by
  simp [afterStore, apiHandler, apiReply, ApiWorld.tick, ApiWorld.setSession, ApiWorld.touch,
    ApiWorld.applyCommit, hdocs]

theorem afterStore_newMessages (hdocs : (w.sessions rid ref).newDocuments = []) :
    ((afterStore rid agent ref m w).sessions rid ref).newMessages = [] := by
  simp [afterStore, apiHandler, apiReply, ApiWorld.tick, ApiWorld.setSession, ApiWorld.touch,
    ApiWorld.applyCommit, hdocs]

theorem afterStore_other (hdocs : (w.sessions rid ref).newDocuments = []) {ref' : SessionRef}
    (hne : ref' ≠ ref) : (afterStore rid agent ref m w).sessions rid ref' = w.sessions rid ref' := by
  simp [afterStore, apiHandler, apiReply, ApiWorld.tick, ApiWorld.setSession, ApiWorld.touch,
    ApiWorld.applyCommit, hdocs, hne]

/-- A message of the conversation is stored. -/
theorem Views.afterStore (h : Views convId w st) (hm : m.conversationId = convId)
    (hnew : (w.sessions rid ref).newMessages = []) (hdocs : (w.sessions rid ref).newDocuments = [])
    (hlate : ∀ r ∈ w.messages, r.conversationId = convId → r.createdAt < w.txTime rid ref)
    (hle : w.txTime rid ref ≤ w.clock) :
    Views convId (afterStore rid agent ref m w) (LogCache.store m.toChat st) := by
  have hrow : [w.messageRow rid ref m].filter (·.conversationId = convId) = [w.messageRow rid ref m] := by
    simp [ApiWorld.messageRow, hm]
  have hmem : ∀ r ∈ w.messages.filter (·.conversationId = convId), r ∈ w.messages ∧
    r.conversationId = convId :=
    fun r hr => by simpa using hr
  refine ⟨?_, ?_, ?_, ?_⟩
  · rw [afterStore_messages hnew hdocs, List.filter_append, hrow, List.pairwise_append]
    refine ⟨h.ordered, List.pairwise_singleton _ _, fun a ha b hb => ?_⟩
    rw [List.mem_singleton] at hb
    subst hb
    exact hlate a (hmem a ha).1 (hmem a ha).2
  · rw [afterStore_messages hnew hdocs, afterStore_clock hdocs]
    intro r hr he
    rcases List.mem_append.mp hr with hr | hr
    · have := h.past r hr he
      omega
    · rw [List.mem_singleton] at hr
      subst hr
      exact Nat.lt_of_le_of_lt hle (by omega)
  · rw [afterStore_messages hnew hdocs, List.filter_append, hrow, List.map_append, h.stored]
    rfl
  · rw [afterStore_buffers hdocs]
    exact h.buf

end Store

/-! ### The buffer of a turn -/

section Buffer

variable (rid : Nat) (agent : AgentReplies) (s : BufferSettings)

theorem Views.append (h : Views convId w st) (m : ChatMessage) :
    Views convId (apiHandler rid agent (.pipeline (appendCmds s convId m)) w).2
      (LogCache.push s.shortTermBufferSize m st) where
  ordered := h.ordered
  past r hr he := Nat.lt_succ_of_lt (h.past r hr he)
  stored := h.stored
  buf := by
    simp [apiHandler, apiReply, ApiWorld.tick, appendCmds, BufferCmd.exec, ltrim_neg, LogCache.push, h.buf]

/-- Pushing messages one by one appends them. -/
theorem foldl_rpush (key : String) (ms : List ChatMessage) (b : String → List ChatMessage) :
    (ms.map (BufferCmd.rpush key)).foldl BufferCmd.exec b = Function.update b key (b key ++ ms) := by
  induction ms generalizing b with
  | nil => simp
  | cons m ms ih => simp [BufferCmd.exec, ih]

theorem Views.warmup (h : Views convId w st) (ms : List ChatMessage) :
    Views convId (apiHandler rid agent (.pipeline (warmupCmds s convId ms)) w).2
      ⟨st.stored, lastUpTo s.shortTermBufferSize ms⟩ where
  ordered := h.ordered
  past r hr he := Nat.lt_succ_of_lt (h.past r hr he)
  stored := h.stored
  buf := by
    simp [apiHandler, apiReply, ApiWorld.tick, warmupCmds, BufferCmd.exec, foldl_rpush, sliceFrom_neg]

end Buffer

end LegalRag
