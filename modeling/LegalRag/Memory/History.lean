import LegalRag.Memory.BufferFaithful

/-!
# The history that a client is shown

`GET /conversations/{id}/messages` reads the messages of a conversation in the order of their times, cut
to 200 from the oldest on, where `recent_messages`, which the prompt is made from, cuts from the newest
on.

* `shows_of_short`, `not_shows_of_long`: the messages of a turn are in the list if the conversation has at
most 200 messages, and its last one is not if it has more;
* `history_shows_turn_iff`: the same for the last turn of any run;
* `long_history_stuck`: a conversation of 200 messages, whose list does not change with the next turn.
-/

namespace LegalRag

open Calls Redis

/-- A message of the response of `list_messages`. -/
structure MessageOut where
  id : Uuid
  role : Role
  content : String
  citations : List Citation
  tokensIn : Option Nat
  tokensOut : Option Nat
  createdAt : Nat
  deriving DecidableEq, Repr

/-- The response for a row. -/
def Message.out (m : Message) : MessageOut :=
  ⟨m.id, m.role, m.content, m.citations, m.tokensIn, m.tokensOut, m.createdAt⟩

/-- `ConversationRepo.messages`: by increasing times, and no more than `limit`. -/
def ApiWorld.messagesOf (rid : Nat) (ref : SessionRef) (convId : Uuid) (limit : Nat) (w : ApiWorld) :
    List Message :=
  (((w.messages ++ (w.sessions rid ref).newMessages).filter (·.conversationId = convId)).insertionSort
    fun a b => a.createdAt ≤ b.createdAt).take limit

/-- `list_messages`. -/
def listMessages (rid : Nat) (convId userId : Uuid) (w : ApiWorld) : Except ApiErr (List MessageOut) :=
  match w.conversations.find? fun c => c.id = convId ∧ c.userId = userId with
  | none => .error (.http 404 "conversation not found")
  | some _ => .ok ((w.messagesOf rid .request convId 200).map Message.out)

/-- A request for the list returns every message that was committed between `w` and `w'`, and the last
messages of the list are those that `recent_messages` returns. -/
def ShowsTurn (rid : Nat) (c : ChatCall) (w w' : ApiWorld) : Prop :=
  ∃ out, listMessages rid c.convId c.userId (w'.openSessions rid) = .ok out ∧
    (∀ m ∈ w'.messages, m.conversationId = c.convId → m ∉ w.messages → m.out ∈ out) ∧
    ∀ n, ((w'.openSessions rid).recentMessages rid .request c.convId n).map Message.out = out.rtake n

/-- The messages of the conversation, in the order in which they were committed. -/
def committed (convId : Uuid) (w : ApiWorld) : List Message :=
  w.messages.filter (·.conversationId = convId)

/-- They were stored at different times in the past. -/
structure Chronological (convId : Uuid) (w : ApiWorld) : Prop where
  ordered : (committed convId w).Pairwise fun a b => a.createdAt < b.createdAt
  past : ∀ m ∈ w.messages, m.conversationId = convId → m.createdAt < w.clock

/-! ### What no call changes -/

/-- The messages are only added to, and the conversations keep their users. -/
structure Extends (w w' : ApiWorld) : Prop where
  messages : w.messages <+: w'.messages
  owners : w'.conversations.map (fun k => (k.id, k.userId)) = w.conversations.map fun k =>
    (k.id, k.userId)

private theorem Extends.same {w w' : ApiWorld} (hm : w'.messages = w.messages)
    (hc : w'.conversations = w.conversations) : Extends w w' := ⟨hm ▸ List.prefix_refl _, by rw [hc]⟩

theorem Extends.refl (w : ApiWorld) : Extends w w := Extends.same rfl rfl

private theorem Extends.trans {u v w : ApiWorld} (h : Extends u v) (h' : Extends v w) : Extends u w :=
  ⟨h.messages.trans h'.messages, h'.owners.trans h.owners⟩

private theorem extends_call (rid : Nat) (agent : AgentReplies) (o : ApiCalls.Op) (w : ApiWorld) :
    Extends w (apiHandler rid agent o w).2 := by
  cases o with
  | commit ref =>
    simp only [apiHandler, apiReply]
    split
    · exact Extends.same rfl rfl
    · refine ⟨List.prefix_append _ _, ?_⟩
      simp only [ApiWorld.tick, ApiWorld.setSession, ApiWorld.applyCommit]
      split
      · rw [List.map_map]
        refine List.map_congr_left fun row _ => ?_
        simp only [Function.comp_apply]
        split <;> rfl
      · rfl
  | createDocument ref d =>
    simp only [apiHandler, apiReply]
    split <;> exact Extends.same rfl rfl
  | enqueueJob f a =>
    simp only [apiHandler, apiReply]
    split <;> exact Extends.same rfl rfl
  | _ => exact Extends.same rfl rfl

private theorem extends_exec (rid : Nat) (agent : AgentReplies) {α : Type} (p : Api α) (w : ApiWorld) :
    Extends w (p.exec (apiHandler rid agent) w).2 :=
  Prog.rel_exec Extends.refl (fun _ _ _ => Extends.trans) (extends_call rid agent) p w

private theorem Extends.owns {w w' : ApiWorld} (h : Extends w w') {c : ChatCall} (ho : Owns c w) :
    Owns c w' := by
  have hiff : ∀ v : ApiWorld, Owns c v ↔ (c.convId, c.userId) ∈ v.conversations.map fun k =>
      (k.id, k.userId) := by
    intro v
    unfold Owns
    rw [← Option.isSome_iff_exists, List.find?_isSome, List.mem_map]
    simp only [decide_eq_true_eq, Prod.mk.injEq]
  rw [hiff, h.owners, ← hiff]
  exact ho

private theorem Extends.committed {w w' : ApiWorld} (h : Extends w w') (convId : Uuid) :
    ∃ new, LegalRag.committed convId w' = LegalRag.committed convId w ++ new := by
  obtain ⟨new, hnew⟩ := h.messages
  refine ⟨new.filter (·.conversationId = convId), ?_⟩
  rw [LegalRag.committed, ← hnew, List.filter_append]
  rfl

/-! ### What the two queries read -/

private theorem openSessions_newMessages (rid : Nat) (ref : SessionRef) (w : ApiWorld) :
    ((w.openSessions rid).sessions rid ref).newMessages = [] := by
  simp [ApiWorld.openSessions, Session.fresh]

section Queries

variable {rid : Nat} {convId : Uuid} {w : ApiWorld} (h : Chronological convId w)

include h

private theorem Chronological.messagesOf (limit : Nat) :
    (w.openSessions rid).messagesOf rid .request convId limit = (committed convId w).take limit := by
  have hsorted := (h.ordered.imp Nat.le_of_lt).insertionSort_eq
  rw [ApiWorld.messagesOf, openSessions_newMessages, List.append_nil]
  exact congrArg (List.take limit) hsorted

private theorem Chronological.recentMessages (n : Nat) :
    (w.openSessions rid).recentMessages rid .request convId n = (committed convId w).rtake n := by
  rw [ApiWorld.recentMessages, ApiWorld.newestFirst, openSessions_newMessages, List.append_nil,
    List.rtake_eq_reverse_take_reverse]
  exact congrArg (fun l => (List.take n l).reverse) (insertionSort_newest h.ordered)

end Queries

private theorem listMessages_of_owns {rid : Nat} {c : ChatCall} {w : ApiWorld} (ho : Owns c w) :
    listMessages rid c.convId c.userId (w.openSessions rid) =
      .ok (((w.openSessions rid).messagesOf rid .request c.convId 200).map Message.out) := by
  obtain ⟨conv, hconv⟩ := ho
  have hopen : (w.openSessions rid).conversations.find? (fun k => k.id = c.convId ∧ k.userId = c.userId) =
      some conv := hconv
  rw [listMessages, hopen]

/-! ### The list after a turn -/

section Turn

variable {rid : Nat} {c : ChatCall} {w w' : ApiWorld}

theorem shows_of_short (h : Chronological c.convId w') (ho : Owns c w')
    (hshort : (committed c.convId w').length ≤ 200) : ShowsTurn rid c w w' := by
  refine ⟨_, listMessages_of_owns ho, ?_, ?_⟩
  · intro m hm hconv _
    rw [h.messagesOf, List.take_of_length_le hshort]
    exact List.mem_map_of_mem (List.mem_filter.mpr ⟨hm, decide_eq_true hconv⟩)
  · intro n
    rw [h.messagesOf, h.recentMessages, List.take_of_length_le hshort, map_rtake]

theorem not_shows_of_long (h : Chronological c.convId w') (ho : Owns c w') {new : List Message}
    (hnew : new ≠ []) (hgrown : committed c.convId w' = committed c.convId w ++ new)
    (hlong : 200 < (committed c.convId w').length) : ¬ ShowsTurn rid c w w' := by
  rintro ⟨out, hout, hlisted, -⟩
  rw [listMessages_of_owns ho, h.messagesOf] at hout
  obtain rfl := Except.ok.inj hout
  -- the last message is new, and later than all that are listed
  obtain ⟨init, last, hlast⟩ := List.eq_nil_or_concat new |>.resolve_left hnew
  have hsplit : committed c.convId w' = (committed c.convId w ++ init) ++ [last] := by
    rw [hgrown, hlast, List.concat_eq_append, List.append_assoc]
  have hlater : ∀ m ∈ committed c.convId w ++ init, m.createdAt < last.createdAt := by
    have hordered := h.ordered
    rw [hsplit] at hordered
    intro m hm
    exact (List.pairwise_append.mp hordered).2.2 m hm last (List.mem_singleton.mpr rfl)
  have hlong' : 200 ≤ (committed c.convId w ++ init).length := by
    rw [hsplit, List.length_append, List.length_singleton] at hlong
    omega
  have hmem : last ∈ committed c.convId w' := by
    rw [hsplit]
    simp
  obtain ⟨hlast', hconv⟩ := List.mem_filter.mp hmem
  have hconv : last.conversationId = c.convId := of_decide_eq_true hconv
  have hnot : last ∉ w.messages := by
    intro hold
    have hin : last ∈ committed c.convId w := List.mem_filter.mpr ⟨hold, decide_eq_true hconv⟩
    exact Nat.lt_irrefl _ (hlater last (List.mem_append_left _ hin))
  obtain ⟨m, hm, hsame⟩ := List.mem_map.mp (hlisted last hlast' hconv hnot)
  rw [hsplit, List.take_append_of_le_length hlong'] at hm
  have htime : m.createdAt = last.createdAt := congrArg MessageOut.createdAt hsame
  exact Nat.ne_of_lt (hlater m (List.mem_of_mem_take hm)) htime

end Turn

/-! ### Runs -/

/-- The world after the events of a conversation. -/
def afterEvents (s : BufferSettings) (convId : Uuid) : Nat → ApiWorld → List ChatEvent → ApiWorld
  | _, w, [] => w
  | rid, w, e :: es => afterEvents s convId (rid + 1) (e.next s convId rid w) es

variable {s : BufferSettings} {convId : Uuid}

private theorem Chronological.views {w : ApiWorld} (h : Chronological convId w) :
    Views convId w ⟨(committed convId w).map (·.toChat), w.buffers (bufKey convId)⟩ :=
  ⟨h.ordered, h.past, rfl, rfl⟩

private theorem Views.chronological {w : ApiWorld} {st : LogCache.State ChatMessage} (h : Views convId w st) :
    Chronological convId w := ⟨h.ordered, h.past⟩

/-- A turn adds an entry to the log, or two. -/
private theorem stored_next {n r : Nat} {st : LogCache.State ChatMessage} {x : ChatMessage}
    {a : Option ChatMessage} : st.stored.length < (LogCache.next n r st (.turn x a)).stored.length := by
  have hask : (LogCache.ask n r x st).stored = st.stored ++ [x] := by
    unfold LogCache.ask LogCache.push LogCache.warm LogCache.store
    split <;> rfl
  cases a with
  | none =>
    rw [LogCache.next, hask]
    simp
  | some a =>
    have hanswer : (LogCache.next n r st (.turn x (some a))).stored = st.stored ++ [x] ++ [a] :=
      congrArg (· ++ [a]) hask
    rw [hanswer]
    simp only [List.length_append, List.length_singleton]
    omega

/-- A turn of the owner commits at least the question. -/
private theorem turn_extends (rid : Nat) {w : ApiWorld} (h : Chronological convId w) (q : Question)
    (ho : Owns (q.call convId) w) :
    Chronological convId ((ChatEvent.request q).next s convId rid w) ∧
    ∃ new, new ≠ [] ∧
      committed convId ((ChatEvent.request q).next s convId rid w) = committed convId w ++ new := by
  have hopen : Views (q.call convId).convId (w.openSessions rid)
      ⟨(committed convId w).map (·.toChat), w.buffers (bufKey convId)⟩ :=
    h.views.of_frame rfl rfl (Nat.le_refl _)
  have hs : (w.openSessions rid).sessions rid = fun _ => Session.fresh := Function.update_self _ _ _
  obtain ⟨a, hfinal, -⟩ := chatStream_spec rid q.agent s hopen hs ho
  obtain ⟨new, hnew⟩ := (extends_exec rid q.agent (chatStream s (q.call convId))
    (w.openSessions rid)).committed convId
  refine ⟨hfinal.chronological, new, ?_, hnew⟩
  rintro rfl
  have hlonger := @stored_next s.shortTermBufferSize 20
    ⟨(committed convId w).map (·.toChat), w.buffers (bufKey convId)⟩ ⟨.user, q.message⟩ a
  have hstored := congrArg List.length hfinal.stored
  have hlen := congrArg List.length hnew
  simp only [List.length_map, List.append_nil] at hstored hlonger hlen
  have hsame : (committed convId ((chatStream s (q.call convId)).exec (apiHandler rid q.agent)
      (w.openSessions rid)).2).length = (committed convId w).length := hlen
  exact absurd (hstored.symm.trans hsame) (Nat.ne_of_gt hlonger)

private theorem Chronological.next (rid : Nat) {w : ApiWorld} (h : Chronological convId w) (e : ChatEvent) :
    Chronological convId (e.next s convId rid w) := by
  cases e with
  | keyLost => exact ⟨h.ordered, h.past⟩
  | request q =>
    by_cases ho : Owns (q.call convId) w
    · exact (turn_extends rid h q ho).1
    · have hopen : Views (q.call convId).convId (w.openSessions rid)
          ⟨(committed convId w).map (·.toChat), w.buffers (bufKey convId)⟩ :=
        h.views.of_frame rfl rfl (Nat.le_refl _)
      exact (chatStream_spec_of_not_owns rid q.agent s hopen ho).1.chronological

private theorem extends_next (rid : Nat) (w : ApiWorld) (e : ChatEvent) :
    Extends w (e.next s convId rid w) := by
  cases e with
  | keyLost => exact Extends.same rfl rfl
  | request q =>
    have hopen : Extends w (w.openSessions rid) := Extends.same rfl rfl
    exact hopen.trans (extends_exec rid q.agent _ _)

private theorem after_events {w : ApiWorld} (h : Chronological convId w) (rid : Nat) (es : List ChatEvent) :
    Chronological convId (afterEvents s convId rid w es) ∧ Extends w (afterEvents s convId rid w es) := by
  induction es generalizing rid w with
  | nil => exact ⟨h, Extends.refl w⟩
  | cons e es ih =>
    obtain ⟨hchron, hextends⟩ := ih (h.next rid e) (rid + 1)
    exact ⟨hchron, (extends_next rid w e).trans hextends⟩

private theorem afterEvents_concat (rid : Nat) (w : ApiWorld) (es : List ChatEvent) (e : ChatEvent) :
    afterEvents s convId rid w (es ++ [e]) =
      e.next s convId (rid + es.length) (afterEvents s convId rid w es) := by
  induction es generalizing rid w with
  | nil => rfl
  | cons e' es ih =>
    rw [List.cons_append, afterEvents, ih, afterEvents, List.length_cons, Nat.add_right_comm, Nat.add_assoc]

/-- After any run of a conversation, the list shows what the next turn of its owner commits exactly when
the conversation then has at most 200 messages. -/
theorem history_shows_turn_iff (rid : Nat) {w : ApiWorld} (h : Chronological convId w)
    (es : List ChatEvent) (q : Question) (ho : Owns (q.call convId) w) :
    ShowsTurn rid (q.call convId) (afterEvents s convId 0 w es)
        (afterEvents s convId 0 w (es ++ [.request q])) ↔
      (committed convId (afterEvents s convId 0 w (es ++ [.request q]))).length ≤ 200 := by
  obtain ⟨hchron, hextends⟩ := after_events (s := s) h 0 es
  have howns := hextends.owns ho
  rw [afterEvents_concat]
  obtain ⟨hnext, new, hne, hnew⟩ := turn_extends (s := s) (0 + es.length) hchron q howns
  have howns' := (@extends_next s convId (0 + es.length) _ (.request q)).owns howns
  constructor
  · intro hshows
    by_contra hlong
    exact not_shows_of_long hnext howns' hne hnew (Nat.lt_of_not_le hlong) hshows
  · intro hshort
    exact shows_of_short hnext howns' hshort

/-! ### A long conversation -/

/-- A conversation of `n` messages. -/
def longConversation (n : Nat) : ApiWorld :=
  { ApiWorld.blank with
    clock := n
    conversations := [⟨1, 7, none, n⟩]
    messages := (List.range n).map fun i => ⟨⟨1, .user, "Điều " ++ toString i, [], none, none⟩, i, i⟩ }

private theorem committed_long (n : Nat) :
    committed 1 (longConversation n) = (longConversation n).messages := by
  refine List.filter_eq_self.mpr fun m hm => ?_
  obtain ⟨i, -, rfl⟩ := List.mem_map.mp hm
  rfl

private theorem chronological_long (n : Nat) : Chronological 1 (longConversation n) where
  ordered := by
    rw [committed_long]
    exact List.pairwise_map.mpr List.pairwise_lt_range
  past m hm _ := by
    obtain ⟨i, hi, rfl⟩ := List.mem_map.mp hm
    exact List.mem_range.mp hi

/-- The next question. -/
def nextQuestion : Question := ⟨7, 3, "Thời hạn?", AgentReplies.none⟩

private theorem owns_long (n : Nat) : Owns (nextQuestion.call 1) (longConversation n) := ⟨_, rfl⟩

/-- After 200 messages the next question is not in the list. -/
theorem long_history_stuck :
    ¬ ShowsTurn 1 (nextQuestion.call 1) (longConversation 200)
      ((ChatEvent.request nextQuestion).next ⟨10, 60⟩ 1 0 (longConversation 200)) := by
  obtain ⟨hnext, new, hne, hnew⟩ :=
    turn_extends (s := ⟨10, 60⟩) 0 (chronological_long 200) nextQuestion (owns_long 200)
  have howns := (@extends_next ⟨10, 60⟩ 1 0 _ (.request nextQuestion)).owns (owns_long 200)
  refine not_shows_of_long hnext howns hne hnew ?_
  have hlen : (committed 1 (longConversation 200)).length = 200 := by
    rw [committed_long, longConversation, List.length_map, List.length_range]
  have hpos := List.length_pos_of_ne_nil hne
  show 200 < (committed 1 _).length
  rw [hnew, List.length_append, hlen]
  omega

/-- The first question is. -/
theorem history_shows_turn_first :
    ShowsTurn 1 (nextQuestion.call 1) (longConversation 0)
        (afterEvents ⟨10, 60⟩ 1 0 (longConversation 0) [.request nextQuestion]) ↔
      (committed 1 (afterEvents ⟨10, 60⟩ 1 0 (longConversation 0) [.request nextQuestion])).length ≤ 200 :=
  history_shows_turn_iff 1 (chronological_long 0) [] nextQuestion (owns_long 0)

end LegalRag
