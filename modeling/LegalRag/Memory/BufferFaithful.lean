import LegalRag.Memory.ChatTurns

/-!
# When the buffer is a faithful cache

Runs of requests on one conversation, each after the end of the one before, in which the key may be lost
between any two.  A request that finds the key lost warms the buffer from Postgres, where its own question
already is, and then appends the question once more.

* `buffer_faithful_iff`: every append of a run leaves the last `shortTermBufferSize` messages in the
buffer exactly when every question that finds the key lost is asked of a history that ends with enough
copies of it;
* `first_question_twice`: the first question of a conversation is in the buffer twice.
-/

namespace LegalRag

open Calls Redis

/-- A question in the conversation: who asks what, and how the agent's calls reply. -/
structure Question where
  userId : Uuid
  tenantId : Uuid
  message : String
  agent : AgentReplies

/-- The chat request of a question. -/
def Question.call (convId : Uuid) (q : Question) : ChatCall := ⟨convId, q.userId, q.tenantId, q.message⟩

/-- A request is served, or the key of the buffer expires or is flushed. -/
inductive ChatEvent where
  | request (q : Question)
  | keyLost

variable (s : BufferSettings) (convId : Uuid)

/-- The world after an event; the request has the number `rid`. -/
def ChatEvent.next (rid : Nat) (w : ApiWorld) : ChatEvent → ApiWorld
  | .request q => ((chatStream s (q.call convId)).exec (apiHandler rid q.agent) (w.openSessions rid)).2
  | .keyLost => { w with buffers := Function.update w.buffers (bufKey convId) [] }

/-- The worlds right after the appends of an event. -/
def ChatEvent.appends (rid : Nat) (w : ApiWorld) : ChatEvent → List ApiWorld
  | .request q =>
    appendWorlds (apiHandler rid q.agent) (chatStream s (q.call convId)) (w.openSessions rid)
  | .keyLost => []

/-- The buffer holds the last `shortTermBufferSize` messages of the conversation, or all if there are
fewer. -/
def BufferFaithful (w : ApiWorld) : Prop :=
  bufferOf convId w = (history convId w).rtake s.shortTermBufferSize

/-- After every append of the run the buffer is faithful. -/
def AppendsFaithful : Nat → ApiWorld → List ChatEvent → Prop
  | _, _, [] => True
  | rid, w, e :: es =>
    (∀ v ∈ e.appends s convId rid w, BufferFaithful s convId v) ∧
    AppendsFaithful (rid + 1) (e.next s convId rid w) es

/-- A request on a conversation of its user finds the buffer, or its history ends with copies of the
question. -/
def WarmOk (w : ApiWorld) : ChatEvent → Prop
  | .request q => Owns (q.call convId) w → bufferOf convId w ≠ [] ∨
      LogCache.Harmless s.shortTermBufferSize 20 (history convId w ++ [⟨.user, q.message⟩]) ⟨.user, q.message⟩
  | .keyLost => True

/-- Every event of the run is one of `WarmOk`. -/
def AlwaysWarmOk : Nat → ApiWorld → List ChatEvent → Prop
  | _, _, [] => True
  | rid, w, e :: es => WarmOk s convId w e ∧ AlwaysWarmOk (rid + 1) (e.next s convId rid w) es

/-- The messages of the conversation were stored at different times in the past, and its buffer is lost or
faithful. -/
structure ChatStart (w : ApiWorld) : Prop where
  ordered : (w.messages.filter (·.conversationId = convId)).Pairwise fun a b => a.createdAt < b.createdAt
  past : ∀ m ∈ w.messages, m.conversationId = convId → m.createdAt < w.clock
  good : bufferOf convId w = [] ∨ BufferFaithful s convId w

variable {s convId}

private theorem views_of_start {w : ApiWorld} (h : ChatStart s convId w) :
    ∃ st, Views convId w st ∧ (st.buf = [] ∨ LogCache.Faithful s.shortTermBufferSize st) := by
  have hv : Views convId w ⟨(w.messages.filter (·.conversationId = convId)).map (·.toChat),
    w.buffers (bufKey convId)⟩ :=
    ⟨h.ordered, h.past, rfl, rfl⟩
  have hgood := h.good
  rw [BufferFaithful, hv.bufferOf_eq, hv.history_eq] at hgood
  exact ⟨_, hv, hgood⟩

private theorem Views.faithful_iff {w : ApiWorld} {st : LogCache.State ChatMessage} (h : Views convId w st) :
    BufferFaithful s convId w ↔ LogCache.Faithful s.shortTermBufferSize st := by
  rw [BufferFaithful, h.bufferOf_eq, h.history_eq, LogCache.Faithful]

private theorem forall_faithful_iff {ws : List ApiWorld} {sts : List (LogCache.State ChatMessage)}
    (h : List.Forall₂ (Views convId) ws sts) :
    (∀ w ∈ ws, BufferFaithful s convId w) ↔ ∀ st ∈ sts, LogCache.Faithful s.shortTermBufferSize st := by
  induction h with
  | nil => simp
  | cons hv _ ih => simp [hv.faithful_iff, ih]

/-- One event: its appends are faithful exactly when it is one of `WarmOk`, and then what the run needs is
kept. -/
private theorem event_faithful_iff (hn : 1 ≤ s.shortTermBufferSize) {w : ApiWorld}
    {st : LogCache.State ChatMessage} (hv : Views convId w st)
    (hst : st.buf = [] ∨ LogCache.Faithful s.shortTermBufferSize st) (rid : Nat) (e : ChatEvent) :
    ((∀ v ∈ e.appends s convId rid w, BufferFaithful s convId v) ↔ WarmOk s convId w e) ∧
    ((∀ v ∈ e.appends s convId rid w, BufferFaithful s convId v) →
      ∃ st', Views convId (e.next s convId rid w) st' ∧
      (st'.buf = [] ∨ LogCache.Faithful s.shortTermBufferSize st')) := by
  cases e with
  | keyLost =>
    have hlost : Views convId (ChatEvent.keyLost.next s convId rid w) (LogCache.lose st) :=
      ⟨hv.ordered, hv.past, hv.stored, Function.update_self _ _ _⟩
    exact ⟨iff_of_true (by simp [ChatEvent.appends]) trivial, fun _ => ⟨_, hlost, Or.inl rfl⟩⟩
  | request q =>
    have hopen : Views (q.call convId).convId (w.openSessions rid) st :=
      hv.of_frame rfl rfl (Nat.le_refl _)
    have hs : (w.openSessions rid).sessions rid = fun _ => Session.fresh := Function.update_self _ _ _
    by_cases ho : Owns (q.call convId) w
    · obtain ⟨a, hfinal, happ⟩ := chatStream_spec rid q.agent s hopen hs ho
      have hturn := LogCache.appends_faithful_iff hn 20 hst (.turn ⟨.user, q.message⟩ a)
      have hok : WarmOk s convId w (.request q) ↔
          LogCache.TurnOk s.shortTermBufferSize 20 st (.turn ⟨.user, q.message⟩ a) := by
        rw [WarmOk, hv.bufferOf_eq, hv.history_eq]
        exact ⟨fun h => h ho, fun h _ => h⟩
      have hiff : (∀ v ∈ (ChatEvent.request q).appends s convId rid w, BufferFaithful s convId v) ↔
          ∀ t ∈ LogCache.appends s.shortTermBufferSize 20 st (.turn ⟨.user, q.message⟩ a),
            LogCache.Faithful s.shortTermBufferSize t := forall_faithful_iff happ
      exact ⟨hiff.trans (hturn.trans hok.symm), fun h => ⟨_, hfinal, LogCache.next_good 20 (hiff.mp h)⟩⟩
    · obtain ⟨hfinal, happ⟩ := chatStream_spec_of_not_owns rid q.agent s hopen ho
      rw [ChatEvent.appends, happ]
      exact ⟨iff_of_true (by simp) fun h => absurd h ho, fun _ => ⟨st, hfinal, hst⟩⟩

/-- Every append of a run is faithful exactly when every request that finds the key lost is harmless. -/
theorem buffer_faithful_iff (hn : 1 ≤ s.shortTermBufferSize) {w : ApiWorld} (hw : ChatStart s convId w)
    (es : List ChatEvent) : AppendsFaithful s convId 0 w es ↔ AlwaysWarmOk s convId 0 w es := by
  obtain ⟨st, hv, hst⟩ := views_of_start hw
  have hrun : ∀ rid w st, Views convId w st → (st.buf = [] ∨ LogCache.Faithful s.shortTermBufferSize st) →
      (AppendsFaithful s convId rid w es ↔ AlwaysWarmOk s convId rid w es) := by
    induction es with
    | nil => exact fun _ _ _ _ _ => Iff.rfl
    | cons e es ih =>
      intro rid w st hv hst
      obtain ⟨hiff, hkeep⟩ := event_faithful_iff hn hv hst rid e
      rw [AppendsFaithful, AlwaysWarmOk, ← hiff]
      refine and_congr_right fun h => ?_
      obtain ⟨st', hv', hst'⟩ := hkeep h
      exact ih _ _ st' hv' hst'
  exact hrun 0 w st hv hst

instance (s : BufferSettings) (convId : Uuid) (w : ApiWorld) : Decidable (BufferFaithful s convId w) :=
  inferInstanceAs (Decidable (bufferOf convId w = (history convId w).rtake s.shortTermBufferSize))

/-- A conversation of user 1 with the given messages and buffer. -/
def chatWorld (messages : List Message) (buf : List ChatMessage) : ApiWorld where
  clock := 10
  nextUuid := 100
  conversations := [⟨1, 1, none, messages.length⟩]
  messages := messages
  documents := []
  sessions := fun _ _ => Session.fresh
  objects := fun _ => none
  buffers := Function.update (fun _ => []) (bufKey 1) buf
  arqPool := none
  broker := ⟨fun _ => [], [], []⟩

/-- A question that the agent fails to answer. -/
def unanswered (m : String) : Question :=
  ⟨1, 1, m, ⟨.ok [], .error (.other "timeout"), .error (.other "timeout")⟩⟩

theorem buffer_faithful_iff_warm :
    AppendsFaithful ⟨20, 86400⟩ 1 0
      (chatWorld [⟨⟨1, .user, "Xin chào", [], none, none⟩, 7, 3⟩] [⟨.user, "Xin chào"⟩])
      [.request (unanswered "Điều 5 nói gì?")] := by
  have hw : ChatStart ⟨20, 86400⟩ 1
    (chatWorld [⟨⟨1, .user, "Xin chào", [], none, none⟩, 7, 3⟩] [⟨.user, "Xin chào"⟩]) :=
    ⟨by decide, by decide, Or.inr (by decide +kernel)⟩
  exact (buffer_faithful_iff (by decide) hw _).mpr ⟨fun _ => Or.inl (by decide +kernel), trivial⟩

/-- The first question of a conversation is in the buffer twice. -/
theorem first_question_twice :
    ChatStart ⟨20, 86400⟩ 1 (chatWorld [] []) ∧
      ¬ AppendsFaithful ⟨20, 86400⟩ 1 0 (chatWorld [] []) [.request (unanswered "Xin chào")] := by
  refine ⟨⟨by decide, by decide, Or.inl (by decide +kernel)⟩, fun h => ?_⟩
  have hnot : ¬ ∀ v ∈ (ChatEvent.request (unanswered "Xin chào")).appends ⟨20, 86400⟩ 1 0 (chatWorld [] []),
      BufferFaithful ⟨20, 86400⟩ 1 v := by decide +kernel
  exact hnot h.1

end LegalRag
