import LegalRag.Api.Sessions

/-!
# What the sessions hold in each phase

In each phase of a request its sessions hold certain rows (`RequestHolds`): the session that loads the
conversation and inserts a message commits exactly that message, and nobody else does.  `CountEffect` is
what a call then does to the messages and to the rows of `conversations`.
-/

namespace LegalRag

open Calls Prog Service

/-! ### What the sessions of a request hold -/

/-- The session has loaded the row of the conversation and inserted the message. -/
def Session.Holds (convId : Uuid) (m : Message) (s : Session) : Prop :=
  ∃ conv, s.content = (some conv, [m], []) ∧ conv.id = convId ∧ m.conversationId = convId

/-- The conversation has a row. -/
def HasConversation (convId : Uuid) (w : ApiWorld) : Prop := ∃ row ∈ w.conversations, row.id = convId

/-- The session of a block that has not begun. -/
def ScopeClean (pid : Nat) (w : ApiWorld) : Prop := (w.sessions pid .scope).content = (none, [], [])

/-- The session of the request has committed its message. -/
def Flushed (pid : Nat) (w : ApiWorld) : Prop := (w.sessions pid .request).newMessages = []

/-- What the sessions of a chat request hold in each phase. -/
def ChatHolds (c : ChatCall) (pid : Nat) : ChatPhase → ApiWorld → Prop
  | .start, w => ∀ ref, (w.sessions pid ref).content = (none, [], [])
  | .found, w =>
    (∃ conv, (w.sessions pid .request).content = (some conv, [], []) ∧ conv.id = c.convId) ∧
    ScopeClean pid w ∧ HasConversation c.convId w
  | .asked m, w =>
    (w.sessions pid .request).Holds c.convId m ∧ ScopeClean pid w ∧ HasConversation c.convId w
  | .answered m, w => (w.sessions pid .scope).Holds c.convId m ∧ HasConversation c.convId w
  | .kept _, _ | .ended, _ | .refused, _ => True
  | _, w => ScopeClean pid w ∧ Flushed pid w ∧ HasConversation c.convId w

/-- The same for all requests: those of an upload hold neither a conversation nor messages. -/
def RequestHolds : ApiRequest → Nat → ChatPhase → ApiWorld → Prop
  | .upload _, pid, _, w =>
    ∀ ref, (w.sessions pid ref).conv = none ∧ (w.sessions pid ref).newMessages = []
  | .chat c _, pid, φ, w => ChatHolds c pid φ w

/-- Every request is in a phase in which its sessions hold what they should. -/
abbrev HoldsInv (cfg : ApiSettings) (s : ApiState) : Prop :=
  s.Obeys (requestPhases cfg.buffer) RequestEnds RequestHolds

/-- The rows of `conversations` keep their ids. -/
def SameIds (w w' : ApiWorld) : Prop := w'.conversations.map (·.id) = w.conversations.map (·.id)

private theorem HasConversation.sameIds {convId : Uuid} {w w' : ApiWorld} (h : HasConversation convId w)
    (hw : SameIds w w') : HasConversation convId w' := by
  obtain ⟨row, hrow, hid⟩ := h
  have hmem : convId ∈ w'.conversations.map (·.id) := by
    rw [hw]
    exact List.mem_map.mpr ⟨row, hrow, hid⟩
  obtain ⟨row', hrow', hid'⟩ := List.mem_map.mp hmem
  exact ⟨row', hrow', hid'⟩

private theorem setCounts_ids (conv : Option Conversation) (rows : List Conversation) :
    (setCounts conv rows).map (·.id) = rows.map (·.id) := by
  cases conv with
  | none => rfl
  | some c =>
    show (rows.map _).map _ = _
    rw [List.map_map]
    refine List.map_congr_left fun row _ => ?_
    show (if row.id = c.id then _ else row : Conversation).id = row.id
    split <;> rfl

section Frame

variable {req : ApiRequest} {pid : Nat} {φ : ChatPhase} {w w' : ApiWorld}

/-- What a request holds is not affected by a step that leaves its sessions alone. -/
theorem RequestHolds.frame (h : RequestHolds req pid φ w) (hs : w'.sessions pid = w.sessions pid)
    (hw : SameIds w w') : RequestHolds req pid φ w' := by
  cases req with
  | upload c =>
    intro ref
    rw [hs]
    exact h ref
  | chat c agent =>
    have hscope : ScopeClean pid w → ScopeClean pid w' := by
      unfold ScopeClean
      rw [hs]
      exact id
    have hplain : ScopeClean pid w ∧ Flushed pid w ∧ HasConversation c.convId w →
        ScopeClean pid w' ∧ Flushed pid w' ∧ HasConversation c.convId w' := by
      intro hw'
      refine ⟨hscope hw'.1, ?_, hw'.2.2.sameIds hw⟩
      unfold Flushed
      rw [hs]
      exact hw'.2.1
    cases φ with
    | start =>
      intro ref
      rw [hs]
      exact h ref
    | found =>
      refine ⟨?_, hscope h.2.1, h.2.2.sameIds hw⟩
      rw [hs]
      exact h.1
    | asked m =>
      refine ⟨?_, hscope h.2.1, h.2.2.sameIds hw⟩
      rw [hs]
      exact h.1
    | answered m =>
      refine ⟨?_, h.2.sameIds hw⟩
      rw [hs]
      exact h.1
    | kept m => trivial
    | ended => trivial
    | refused => trivial
    | stored m => exact hplain h
    | empty m => exact hplain h
    | snapshot m ms => exact hplain h
    | warm m => exact hplain h
    | answering => exact hplain h

end Frame

/-! ### What a call does to the sessions and to the counter -/

/-- The effect of a call on the messages and the rows of `conversations`. -/
inductive CountEffect (pid : Nat) (w w' : ApiWorld) (o : ApiOp) : Prop
  | same (messages : w'.messages = w.messages) (conversations : w'.conversations = w.conversations)
      (quiet : ∀ ref, o = .commit ref → (w.sessions pid ref).conv = none)
  | commit (ref : SessionRef) (conv : Conversation) (m : Message) (op : o = .commit ref)
      (content : (w.sessions pid ref).content = (some conv, [m], [])) (id : m.conversationId = conv.id)
      (messages : w'.messages = w.messages ++ [m])
      (conversations : w'.conversations = setCounts (some conv) w.conversations)

private theorem CountEffect.sameIds {pid : Nat} {w w' : ApiWorld} {o : ApiOp} (h : CountEffect pid w w' o) :
    SameIds w w' := by
  unfold SameIds
  cases h with
  | same messages conversations quiet => rw [conversations]
  | commit ref conv m op content id messages conversations => rw [conversations, setCounts_ids]

section Chat

variable {s : BufferSettings} {c : ChatCall} {pid : Nat} {agent : AgentReplies} {w : ApiWorld} {φ : ChatPhase}

private theorem countEffect_of_content {o : ApiOp} (ho : ¬ Transactional o) :
    CountEffect pid w (apiHandler pid agent o w).2 o := by
  obtain ⟨-, hmessages, hconversations⟩ := @apiHandler_content pid o ho agent w
  refine .same hmessages hconversations ?_
  rintro ref rfl
  exact absurd trivial ho

private theorem countEffect_of_holds {ref : SessionRef} {convId : Uuid} {m : Message}
    (h : (w.sessions pid ref).Holds convId m) :
    CountEffect pid w (apiHandler pid agent (.commit ref) w).2 (.commit ref) := by
  obtain ⟨conv, hcontent, rfl, hm⟩ := h
  obtain ⟨-, hmessages, hconversations, -⟩ := commit_of_content hcontent agent
  exact .commit ref conv m rfl hcontent hm hmessages hconversations

theorem agentCall_content {o : ApiOp} (ho : AgentCall c o) : ¬ Transactional o := by
  cases o <;> first | exact id | exact absurd ho id

/-- What a chat request's call does to the counter. -/
private theorem chat_countEffect {o : ApiOp} (ha : (chatPhases s c).allows φ o) (h : ChatHolds c pid φ w) :
    CountEffect pid w (apiHandler pid agent o w).2 o := by
  cases φ with
  | start =>
    obtain rfl : o = .getConversation .request c.convId c.userId := ha
    exact .same rfl rfl nofun
  | found =>
    obtain rfl : o = .addMessage .request (question c) := ha
    exact .same rfl rfl nofun
  | asked m =>
    obtain rfl : o = .commit .request := ha
    exact countEffect_of_holds h.1
  | answered m =>
    obtain rfl : o = .commit .scope := ha
    exact countEffect_of_holds h.1
  | answering =>
    rcases ha with ha | ⟨n, -, rfl⟩
    · exact countEffect_of_content (agentCall_content ha)
    · exact .same rfl rfl nofun
  | ended => exact countEffect_of_content (agentCall_content ha)
  | stored m =>
    obtain rfl : o = .lrange (bufKey c.convId) 0 (-1) := ha
    exact .same rfl rfl nofun
  | empty m =>
    obtain rfl : o = .recentMessages .request c.convId 20 := ha
    exact .same rfl rfl nofun
  | snapshot m ms =>
    obtain rfl : o = .pipeline (if ms = [] then appendCmds s c.convId m else warmupCmds s c.convId ms) :=
      ha
    exact .same rfl rfl nofun
  | warm m =>
    obtain rfl : o = .pipeline (appendCmds s c.convId m) := ha
    exact .same rfl rfl nofun
  | kept m =>
    obtain rfl : o = .pipeline (appendCmds s c.convId m) := ha
    exact .same rfl rfl nofun
  | refused => exact absurd ha id

/-- The session after an INSERT that finds the row of the conversation. -/
private theorem holds_addMessage {ref : SessionRef} {n : NewMessage} {conv : Option Conversation}
    (hcontent : (w.sessions pid ref).content = (conv, [], []))
    (hconv : ∀ k ∈ conv, k.id = n.conversationId) (hrow : HasConversation n.conversationId w) :
    ((apiHandler pid agent (.addMessage ref n) w).2.sessions pid ref).Holds n.conversationId
      (w.messageRow pid ref n) := by
  obtain ⟨k, hload, hk⟩ : ∃ k, w.loadConversation pid ref n.conversationId = some k ∧
      k.id = n.conversationId := by
    have hc : (w.sessions pid ref).conv = conv := congrArg Prod.fst hcontent
    unfold ApiWorld.loadConversation
    rw [hc]
    cases conv with
    | some k =>
      have hk : k.id = n.conversationId := hconv k rfl
      exact ⟨k, by simp [Option.filter, hk], hk⟩
    | none =>
      obtain ⟨row, hrow, hid⟩ := hrow
      cases hfind : w.conversations.find? (·.id = n.conversationId) with
      | none =>
        have hnone := List.find?_eq_none.mp hfind row hrow
        simp [hid] at hnone
      | some k => exact ⟨k, rfl, by simpa using List.find?_some hfind⟩
  have htouch : ((w.touch pid ref).sessions pid ref).content = (conv, [], []) :=
    (content_touch ref pid ref).trans hcontent
  refine ⟨{ k with messageCount := k.messageCount + 1 }, ?_, hk, rfl⟩
  rw [addMessage_world]
  show (((w.touch pid ref).setSession pid ref (w.insertedSession pid ref n)).sessions pid ref).content = _
  rw [content_setSession, if_pos rfl]
  have hins : ∀ t : Session, (w.insertedSession pid ref n t).content =
      (some { k with messageCount := k.messageCount + 1 }, t.content.2.1 ++ [w.messageRow pid ref n],
        t.content.2.2) := by
    intro t
    simp only [ApiWorld.insertedSession, Session.content, hload, Option.map_some, Option.some_or]
  rw [hins, htouch]
  rfl

/-- The other session of the request. -/
private theorem content_addMessage_of_ne {ref ref' : SessionRef} (hne : ref' ≠ ref) (n : NewMessage) :
    ((apiHandler pid agent (.addMessage ref n) w).2.sessions pid ref').content =
    (w.sessions pid ref').content := by
  rw [addMessage_world]
  show (((w.touch pid ref).setSession pid ref (w.insertedSession pid ref n)).sessions pid ref').content = _
  rw [content_setSession, if_neg hne]

/-- A call of the phases in which nothing is to be committed. -/
private theorem scope_frame {o : ApiOp} (ho : ¬ Transactional o)
    (h : ScopeClean pid w ∧ Flushed pid w ∧ HasConversation c.convId w) :
    ScopeClean pid (apiHandler pid agent o w).2 ∧ Flushed pid (apiHandler pid agent o w).2 ∧
      HasConversation c.convId (apiHandler pid agent o w).2 := by
  obtain ⟨hcontent, -, -⟩ := @apiHandler_content pid o ho agent w
  have hrequest := hcontent pid .request
  simp only [Session.content, Prod.mk.injEq] at hrequest
  exact ⟨(hcontent pid .scope).trans h.1, hrequest.2.1.trans h.2.1,
    h.2.2.sameIds (countEffect_of_content ho).sameIds⟩

/-- After a commit of the request's session. -/
private theorem scope_commit {m : Message}
    (h : (w.sessions pid .request).Holds c.convId m ∧ ScopeClean pid w ∧ HasConversation c.convId w) :
    ScopeClean pid (apiHandler pid agent (.commit .request) w).2 ∧
      Flushed pid (apiHandler pid agent (.commit .request) w).2 ∧
        HasConversation c.convId (apiHandler pid agent (.commit .request) w).2 := by
  have heff : CountEffect pid w (apiHandler pid agent (.commit .request) w).2 _ :=
    countEffect_of_holds h.1
  obtain ⟨conv, hcontent, -⟩ := h.1
  obtain ⟨-, -, -, hsessions⟩ := commit_of_content hcontent agent
  refine ⟨?_, ?_, h.2.2.sameIds heff.sameIds⟩
  · unfold ScopeClean
    rw [hsessions .scope, if_neg (by decide)]
    exact h.2.1
  · have hrequest := hsessions .request
    rw [if_pos rfl] at hrequest
    simp only [Session.content, Prod.mk.injEq] at hrequest
    exact hrequest.2.1

/-- A conversation that is found is loaded into the session of the request. -/
private theorem chat_holds_found {conv : Conversation}
    (hfind : w.conversations.find? (fun k => k.id = c.convId ∧ k.userId = c.userId) = some conv)
    (h : ChatHolds c pid .start w) :
    ChatHolds c pid .found (apiHandler pid agent (.getConversation .request c.convId c.userId) w).2 := by
  have hkey := List.find?_some hfind
  have hid : conv.id = c.convId := (of_decide_eq_true hkey).1
  have hrow : HasConversation c.convId w := ⟨conv, List.mem_of_find?_eq_some hfind, hid⟩
  have hload : ∀ t : Session, (w.loadedSession c.convId c.userId t).content = (some conv, t.content.2) := by
    intro t
    simp only [ApiWorld.loadedSession, hfind, Option.some_or, Session.content]
  refine ⟨⟨conv, ?_, hid⟩, ?_, hrow⟩
  · rw [getConversation_world]
    show (((w.touch pid .request).setSession pid .request
      (w.loadedSession c.convId c.userId)).sessions pid .request).content = _
    rw [content_setSession, if_pos rfl, hload, content_touch, h .request]
  · unfold ScopeClean
    rw [getConversation_world]
    show (((w.touch pid .request).setSession pid .request
      (w.loadedSession c.convId c.userId)).sessions pid .scope).content = _
    rw [content_setSession, if_neg (by decide)]
    exact h .scope

/-- After a call that succeeds the sessions hold what the next phase says. -/
private theorem chat_holds_next {o : ApiOp} {a : o.Resp} (ha : (chatPhases s c).allows φ o)
    (h : ChatHolds c pid φ w) (hr : (apiHandler pid agent o w).1 = .ok a) :
    (chatPhases s c).replies φ o a ∧
    ChatHolds c pid ((chatPhases s c).next φ o a) (apiHandler pid agent o w).2 := by
  cases φ with
  | start =>
    obtain rfl : o = .getConversation .request c.convId c.userId := ha
    refine ⟨trivial, ?_⟩
    have hfind : w.conversations.find? (fun k => k.id = c.convId ∧ k.userId = c.userId) = a :=
      Except.ok.inj hr
    cases a with
    | none => trivial
    | some conv => exact chat_holds_found hfind h
  | found =>
    obtain rfl : o = .addMessage .request (question c) := ha
    obtain ⟨⟨conv, hcontent, hid⟩, hscope, hrow⟩ := h
    obtain rfl := Except.ok.inj hr
    refine ⟨rfl, ?_, ?_, hrow⟩
    · refine holds_addMessage hcontent ?_ hrow
      intro k hk
      obtain rfl := Option.some.inj hk
      exact hid
    · exact (content_addMessage_of_ne (by decide) _).trans hscope
  | asked m =>
    obtain rfl : o = .commit .request := ha
    exact ⟨trivial, scope_commit h⟩
  | answered m =>
    obtain rfl : o = .commit .scope := ha
    exact ⟨trivial, trivial⟩
  | answering =>
    rcases ha with ha | ⟨n, hn, rfl⟩
    · obtain ⟨-, hnext, -⟩ := @agentCall_stays s c .answering (Or.inl rfl) o ha
      rw [hnext a]
      refine ⟨?_, scope_frame (agentCall_content ha) h⟩
      cases o <;> trivial
    · obtain rfl := Except.ok.inj hr
      have hrow : HasConversation n.conversationId w := by
        rw [hn]
        exact h.2.2
      refine ⟨rfl, ?_, h.2.2⟩
      have hnone : ∀ k ∈ (none : Option Conversation), k.id = n.conversationId := by
        intro k hk
        cases hk
      have hholds := @holds_addMessage pid agent w .scope n none h.1 hnone hrow
      rwa [hn] at hholds
  | ended =>
    obtain ⟨-, hnext, -⟩ := @agentCall_stays s c .ended (Or.inr rfl) o ha
    rw [hnext a]
    exact ⟨trivial, trivial⟩
  | stored m =>
    obtain rfl : o = .lrange (bufKey c.convId) 0 (-1) := ha
    refine ⟨trivial, ?_⟩
    show ChatHolds c pid (if a = [] then ChatPhase.empty m else ChatPhase.warm m) _
    split <;> exact scope_frame id h
  | empty m =>
    obtain rfl : o = .recentMessages .request c.convId 20 := ha
    exact ⟨trivial, scope_frame id h⟩
  | snapshot m ms =>
    obtain rfl : o = .pipeline (if ms = [] then appendCmds s c.convId m else warmupCmds s c.convId ms) :=
      ha
    refine ⟨trivial, ?_⟩
    show ChatHolds c pid (if ms = [] then ChatPhase.answering else ChatPhase.warm m) _
    split <;> exact scope_frame id h
  | warm m =>
    obtain rfl : o = .pipeline (appendCmds s c.convId m) := ha
    exact ⟨trivial, scope_frame id h⟩
  | kept m =>
    obtain rfl : o = .pipeline (appendCmds s c.convId m) := ha
    exact ⟨trivial, trivial⟩
  | refused => exact absurd ha id

/-- After a call that fails, whether or not it took effect, the request is over, or the agent's failure is
told. -/
private theorem chat_holds_failed {o : ApiOp} (ha : (chatPhases s c).allows φ o) (h : ChatHolds c pid φ w)
    (e : ApiErr) {v : ApiWorld} (hv : v = w ∨ v = (apiHandler pid agent o w).2) :
    ChatHolds c pid ((chatPhases s c).failed φ o e) v := by
  cases φ with
  | answering =>
    rcases ha with ha | ⟨n, hn, rfl⟩
    · obtain ⟨-, -, hfail⟩ := @agentCall_stays s c .answering (Or.inl rfl) o ha
      rw [hfail e]
      rcases hv with rfl | rfl
      · exact h
      · exact scope_frame (agentCall_content ha) h
    · trivial
  | _ => trivial

/-- A call of a chat request leads to a phase whose sessions hold what they should. -/
private theorem chat_holds_call {o : ApiOp} {out : Outcome ApiErr} {rep : Except ApiErr o.Resp}
    (ha : (chatPhases s c).allows φ o) (h : ChatHolds c pid φ w)
    (hrep : out.reply (apiHandler pid agent) o w = some rep) :
    (∀ a, rep = .ok a → (chatPhases s c).replies φ o a) ∧
      ChatHolds c pid ((chatPhases s c).after φ o rep) (out.world (apiHandler pid agent) o w) :=
  Protocol.after_fits (fun _ hr => chat_holds_next ha h hr) (fun e _ hv => chat_holds_failed ha h e hv) hrep

end Chat

section Upload

variable {c : UploadCall} {pid : Nat} {agent : AgentReplies} {w : ApiWorld}

/-- An INSERT of a document leaves the rest of the sessions alone. -/
private theorem createDocument_keeps (ref : SessionRef) (n : NewDocument) (q : Nat) (ref' : SessionRef) :
    ((apiHandler pid agent (.createDocument ref n) w).2.sessions q ref').conv = (w.sessions q ref').conv ∧
      ((apiHandler pid agent (.createDocument ref n) w).2.sessions q ref').newMessages =
        (w.sessions q ref').newMessages := by
  have htouch : ((w.touch pid ref).sessions q ref').conv = (w.sessions q ref').conv ∧
      ((w.touch pid ref).sessions q ref').newMessages = (w.sessions q ref').newMessages := by
    have h := @content_touch pid w ref q ref'
    simp only [Session.content, Prod.mk.injEq] at h
    exact ⟨h.1, h.2.1⟩
  show ((apiReply pid agent (.createDocument ref n) w).2.sessions q ref').conv = _ ∧
    ((apiReply pid agent (.createDocument ref n) w).2.sessions q ref').newMessages = _
  simp only [apiReply]
  split
  · exact htouch
  · have hset : ∀ f : Session → Session, (∀ t, (f t).conv = t.conv ∧ (f t).newMessages = t.newMessages) →
        (((w.touch pid ref).setSession pid ref f).sessions q ref').conv = (w.sessions q ref').conv ∧
          (((w.touch pid ref).setSession pid ref f).sessions q ref').newMessages =
          (w.sessions q ref').newMessages := by
      intro f hf
      by_cases hq : q = pid
      · subst hq
        rw [sessions_setSession]
        by_cases href : ref' = ref
        · subst href
          rw [if_pos rfl, (hf _).1, (hf _).2]
          exact htouch
        · rw [if_neg href]
          exact htouch
      · rw [sessions_setSession_of_ne hq]
        exact htouch
    exact hset (fun t => { t with newDocuments := t.newDocuments ++ [w.documentRow pid ref n] }) fun _ =>
      ⟨rfl, rfl⟩

/-- The commit of an upload. -/
private theorem upload_commit {φ : ChatPhase} (ref : SessionRef) (h : RequestHolds (.upload c) pid φ w) :
    CountEffect pid w (apiHandler pid agent (.commit ref) w).2 (.commit ref) ∧
      RequestHolds (.upload c) pid φ (apiHandler pid agent (.commit ref) w).2 := by
  have hquiet : ∀ ref', (.commit ref : ApiOp) = .commit ref' → (w.sessions pid ref').conv = none := by
    rintro ref' -
    exact (h ref').1
  have hheld : ∀ (v : ApiWorld) (f : Session → Session), (∀ ref', v.sessions pid ref' = w.sessions pid ref') →
      (∀ t : Session, t.conv = none → (f t).conv = none ∧ (f t).newMessages = []) →
        RequestHolds (.upload c) pid φ (v.setSession pid ref f).tick := by
    intro v f hv hf ref'
    show ((v.setSession pid ref f).sessions pid ref').conv = none ∧
      ((v.setSession pid ref f).sessions pid ref').newMessages = []
    rw [sessions_setSession]
    by_cases href : ref' = ref
    · subst href
      rw [if_pos rfl]
      refine hf _ ?_
      rw [hv]
      exact (h ref').1
    · rw [if_neg href, hv]
      exact h ref'
  by_cases hclash : (w.sessions pid ref).newDocuments.any fun d =>
    ApiWorld.clashes d.toNewDocument w.documents
  · have heq : apiHandler pid agent (.commit ref) w = (.error (.other "uq_doc_checksum_per_tenant"),
        (w.setSession pid ref fun _ => Session.fresh).tick) := by
      simp only [apiHandler, apiReply]
      rw [if_pos hclash]
    rw [heq]
    exact ⟨.same rfl rfl hquiet, hheld w _ (fun _ => rfl) fun _ _ => ⟨rfl, rfl⟩⟩
  · have heq : apiHandler pid agent (.commit ref) w =
      (.ok (), ((w.applyCommit pid ref).setSession pid ref fun s =>
        { s with begun := none, newMessages := [], newDocuments := [] }).tick) := by
      simp only [apiHandler, apiReply]
      rw [if_neg hclash]
    rw [heq]
    refine ⟨.same ?_ ?_ hquiet, hheld (w.applyCommit pid ref) _ (fun _ => rfl) fun _ ht => ⟨ht, rfl⟩⟩
    · show w.messages ++ (w.sessions pid ref).newMessages = w.messages
      rw [(h ref).2, List.append_nil]
    · show (w.applyCommit pid ref).conversations = w.conversations
      simp only [ApiWorld.applyCommit, (h ref).1]

/-- What an upload's call does to its sessions and to the counter. -/
theorem upload_call {o : ApiOp} {φ : ChatPhase} (ho : UploadOp o) (h : RequestHolds (.upload c) pid φ w) :
    CountEffect pid w (apiHandler pid agent o w).2 o ∧
    RequestHolds (.upload c) pid φ (apiHandler pid agent o w).2 := by
  have hplain : ¬ Transactional o → CountEffect pid w (apiHandler pid agent o w).2 o ∧
      RequestHolds (.upload c) pid φ (apiHandler pid agent o w).2 := by
    intro ht
    refine ⟨countEffect_of_content ht, fun ref => ?_⟩
    have hcontent := (@apiHandler_content pid o ht agent w).1 pid ref
    simp only [Session.content, Prod.mk.injEq] at hcontent
    rw [hcontent.1, hcontent.2.1]
    exact h ref
  cases o with
  | createDocument ref n =>
    refine ⟨.same ?_ ?_ ?_, fun ref' => ?_⟩
    · show (apiReply pid agent (.createDocument ref n) w).2.messages = w.messages
      simp only [apiReply]
      split <;> rfl
    · show (apiReply pid agent (.createDocument ref n) w).2.conversations = w.conversations
      simp only [apiReply]
      split <;> rfl
    · intro ref' h'
      cases h'
    · obtain ⟨hconv, hms⟩ := @createDocument_keeps pid agent w ref n pid ref'
      rw [hconv, hms]
      exact h ref'
  | commit ref => exact upload_commit ref h
  | getConversation ref convId userId => exact absurd ho id
  | addMessage ref m => exact absurd ho id
  | _ => exact hplain id

end Upload

/-! ### Runs -/

section Runs

variable {cfg : ApiSettings} {worker : WorkerSettings}

theorem request_countEffect {req : ApiRequest} {pid : Nat} {φ : ChatPhase} {w : ApiWorld} {o : ApiOp}
    (ha : (requestPhases cfg.buffer req).allows φ o) (h : RequestHolds req pid φ w) :
    CountEffect pid w ((apiService cfg worker).handle pid req o w).2 o := by
  cases req with
  | upload c => exact (upload_call ha h).1
  | chat c agent => exact chat_countEffect ha h

/-- A request starts with new sessions. -/
theorem request_holds_start (req : ApiRequest) (pid : Nat) (w : ApiWorld) :
    RequestHolds req pid .start (w.openSessions pid) := by
  have hfresh : ∀ ref, (w.openSessions pid).sessions pid ref = Session.fresh := by
    intro ref
    show Function.update w.sessions pid (fun _ => Session.fresh) pid ref = Session.fresh
    rw [Function.update_self]
  cases req with
  | upload c =>
    intro ref
    rw [hfresh]
    exact ⟨rfl, rfl⟩
  | chat c agent =>
    intro ref
    rw [hfresh]
    rfl

/-- A call leads to a phase whose sessions hold what they should. -/
theorem request_holds_call {req : ApiRequest} {pid : Nat} {φ : ChatPhase} {w : ApiWorld} {o : ApiOp}
    {out : Outcome ApiErr} {rep : Except ApiErr o.Resp} (ha : (requestPhases cfg.buffer req).allows φ o)
    (h : RequestHolds req pid φ w)
    (hrep : out.reply ((apiService cfg worker).handle pid req) o w = some rep) :
    (∀ a, rep = .ok a → (requestPhases cfg.buffer req).replies φ o a) ∧
      RequestHolds req pid ((requestPhases cfg.buffer req).after φ o rep)
        (out.world ((apiService cfg worker).handle pid req) o w) := by
  cases req with
  | upload c =>
    refine ⟨fun _ _ => trivial, ?_⟩
    rcases Outcome.world_eq ((apiService cfg worker).handle pid (.upload c)) o w out with hw | hw
    · rw [hw]
      exact h
    · rw [hw]
      exact (upload_call ha h).2
  | chat c agent => exact chat_holds_call ha h hrep

/-- A step of another request leaves the sessions of a request alone, and the rows of `conversations`
their ids. -/
theorem step_others {s s' : ApiState} {l : ApiLabel} {q : Nat} (hi : HoldsInv cfg s)
    (h : (apiService cfg worker).step s l = some s') (hq : l.pid ≠ some q) :
    s'.world.sessions q = s.world.sessions q ∧ SameIds s.world s'.world := by
  rcases step_cases h with ⟨pid, r, rfl, -, rfl⟩ | ⟨pid, out, req, o, k, rfl, hcaller, rfl⟩ |
    ⟨e, w, rfl, hw, rfl⟩
  · have hne : q ≠ pid := fun he => hq (by rw [he]; rfl)
    exact ⟨Function.update_of_ne hne _ _, rfl⟩
  · have hne : q ≠ pid := fun he => hq (by rw [he]; rfl)
    rw [resume_world]
    rcases Outcome.world_eq ((apiService cfg worker).handle pid req) o s.world out with hw | hw
    · rw [hw]
      exact ⟨rfl, rfl⟩
    · -- another request makes a call
      rw [hw]
      obtain ⟨ψ, ⟨ha, -⟩, hcalls⟩ := hi pid _ hcaller
      have heff := @request_countEffect cfg worker req pid ψ s.world o ha hcalls
      obtain ⟨agent, hagent⟩ := handle_eq cfg worker pid req
      refine ⟨?_, heff.sameIds⟩
      rw [hagent]
      exact apiHandler_others hne agent o s.world
  · simp only [apiService, WorkerStep.step, Option.map_eq_some_iff] at hw
    obtain ⟨b, -, rfl⟩ := hw
    exact ⟨rfl, rfl⟩

/-- A step leads to phases whose sessions hold what they should. -/
theorem holds_step {s s' : ApiState} {l : ApiLabel} (hi : HoldsInv cfg s)
    (h : (apiService cfg worker).step s l = some s') : HoldsInv cfg s' := by
  refine obeys_step ?_ ?_ ?_ hi h
  · intro pid req w
    exact ⟨.start, request_phases cfg worker req, request_holds_start req pid w⟩
  · intro pid req o k out φ rep _ _ ha hfits hrep
    exact request_holds_call ha hfits hrep
  · intro q p φ hq _ _ hfits
    obtain ⟨hsessions, hids⟩ := step_others hi h hq
    exact hfits.frame hsessions hids

end Runs

end LegalRag
