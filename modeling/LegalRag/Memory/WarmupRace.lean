import LegalRag.Memory.Counter
import LegalRag.Memory.Views
import LegalRag.Db.Documents

/-!
# Requests that warm the buffer at the same time

A warm-up replaces the buffer by messages that it has read earlier, and an append trims it.  Either may
drop an entry. If no pipeline drops an entry that no running request will append again, then all messages
are in the buffer once all requests are over (`all_buffered`): a stored message is in the buffer, or a
running request is on its way to append it, or it was there before the buffer was first warmed.
-/

namespace LegalRag

open Calls Prog Service Redis

/-- The message is stored in the conversation. -/
def Stored (convId : Uuid) (x : ChatMessage) (w : ApiWorld) : Prop :=
  ∃ m ∈ w.messages, m.conversationId = convId ∧ m.toChat = x

/-- All messages of the conversation are in its buffer. -/
def AllBuffered (convId : Uuid) (w : ApiWorld) : Prop := ∀ x, Stored convId x w → x ∈ bufferOf convId w

/-- A running request is on its way to append the message. -/
def WillAppend (cfg : ApiSettings) (convId : Uuid) (s : ApiState) (x : ChatMessage) : Prop :=
  ∃ pid p, s.procs pid = some p ∧ p.prog.Awaits MemoryOp (· = ApiOp.pipeline (appendCmds cfg.buffer convId x))

/-- The commands that a step executes on the buffers. -/
def bufferCmdsOf (s : ApiState) : ApiLabel → List BufferCmd
  | .call pid _ =>
    match s.procs pid with
    | some ⟨_, .call (.pipeline cmds) _⟩ => cmds
    | _ => []
  | _ => []

/-- The commands of the step drop no entry of the buffer that no running request will append. -/
def DropsNothing (cfg : ApiSettings) (convId : Uuid) (s : ApiState) (l : ApiLabel) : Prop :=
  ∀ x ∈ s.world.buffers (bufKey convId),
    x ∈ (bufferCmdsOf s l).foldl BufferCmd.exec s.world.buffers (bufKey convId) ∨ WillAppend cfg convId s x

/-- The call does not fail. -/
def NoFailure : ApiLabel → Prop
  | .call _ out => out = .ok
  | _ => True

instance : DecidablePred NoFailure
  | .call _ out => inferInstanceAs (Decidable (out = .ok))
  | .start .. => isTrue trivial
  | .env _ => isTrue trivial

/-- The conversation of a chat request that has been answered. -/
def answeredIn (s : ApiState) (pid : Nat) : Option Uuid :=
  match s.procs pid with
  | some ⟨.chat c _, .done (.ok .streamed)⟩ => some c.convId
  | _ => none

/-- How many messages the conversation has. -/
def messageCountOf (convId : Uuid) (w : ApiWorld) : Nat := w.messages.countP (·.conversationId = convId)

/-! ### What a call does to the messages and to the buffer -/

/-- The request asks in the conversation. -/
def AsksIn (convId : Uuid) (req : ApiRequest) : Prop := ∃ c agent, req = .chat c agent ∧ c.convId = convId

/-- The effect of a call on the messages of a conversation and on its buffer. -/
inductive MemoryEffect (s : BufferSettings) (convId : Uuid) (req : ApiRequest) (φ : ChatPhase)
    (w w' : ApiWorld) (o : ApiOp) : Prop
  | same (messages : ∀ x, Stored convId x w' ↔ Stored convId x w)
      (buffer : w'.buffers (bufKey convId) = w.buffers (bufKey convId))
      (other : ∀ x, o ≠ .pipeline (appendCmds s convId x))
  | store (m : Message) (asks : AsksIn convId req) (op : ∃ ref, o = .commit ref)
      (phase : φ = .asked m ∨ φ = .answered m)
      (conv : m.conversationId = convId) (messages : w'.messages = w.messages ++ [m])
      (buffers : w'.buffers = w.buffers)
  | push (x : ChatMessage) (asks : AsksIn convId req) (op : o = .pipeline (appendCmds s convId x))
      (messages : w'.messages = w.messages)
      (buffer : w'.buffers (bufKey convId) = lastUpTo s.shortTermBufferSize
        (w.buffers (bufKey convId) ++ [x]))
  | warm (x : ChatMessage) (ms : List ChatMessage) (asks : AsksIn convId req) (phase : φ = .snapshot x ms)
      (op : o = .pipeline (warmupCmds s convId ms)) (messages : w'.messages = w.messages)
      (buffer : w'.buffers (bufKey convId) = lastUpTo s.shortTermBufferSize ms)

private theorem bufKey_inj {a b : Uuid} (h : bufKey a = bufKey b) : a = b := by
  unfold bufKey at h
  exact uuid_str_inj (String.append_right_inj _ |>.mp h)

section Effects

variable {s : BufferSettings} {convId : Uuid} {w w' : ApiWorld}

private theorem append_buffers (b : String → List ChatMessage) (x : ChatMessage) :
    (appendCmds s convId x).foldl BufferCmd.exec b = Function.update b (bufKey convId)
      (lastUpTo s.shortTermBufferSize (b (bufKey convId) ++ [x])) := by
  simp [appendCmds, BufferCmd.exec, ltrim_neg]

private theorem warmup_buffers (b : String → List ChatMessage) (ms : List ChatMessage) :
    (warmupCmds s convId ms).foldl BufferCmd.exec b =
      Function.update b (bufKey convId) (lastUpTo s.shortTermBufferSize ms) := by
  simp [warmupCmds, BufferCmd.exec, foldl_rpush, sliceFrom_neg]

private theorem stored_append {m : Message} {x : ChatMessage} (h : w'.messages = w.messages ++ [m]) :
    Stored convId x w' ↔ Stored convId x w ∨ m.conversationId = convId ∧ m.toChat = x := by
  unfold Stored
  rw [h]
  simp [or_and_right, exists_or]

private theorem stored_of_eq {x : ChatMessage} (h : w'.messages = w.messages) :
    Stored convId x w' ↔ Stored convId x w := by
  unfold Stored
  rw [h]

section Calls

variable {c : ChatCall} {pid : Nat} {agent : AgentReplies} {φ : ChatPhase} {o : ApiOp}

/-- A call of a chat request that is no pipeline and no commit. -/
private theorem memoryEffect_quiet {req : ApiRequest}
    (ho : ¬ Transactional o ∨ ∃ ref convId' u, o = .getConversation ref convId' u)
    (hp : ∀ cmds, o ≠ .pipeline cmds) : MemoryEffect s convId req φ w (apiHandler pid agent o w).2 o := by
  have hmessages : (apiHandler pid agent o w).2.messages = w.messages := by
    rcases ho with ho | ⟨ref, convId', u, rfl⟩
    · exact (@apiHandler_content pid o ho agent w).2.1
    · rfl
  refine .same (fun x => stored_of_eq hmessages) ?_ fun x => hp _
  rw [@apiHandler_buffers pid o hp agent w]

private theorem memoryEffect_add {req : ApiRequest} (ref : SessionRef) (n : NewMessage) :
    MemoryEffect s convId req φ w (apiHandler pid agent (.addMessage ref n) w).2 (.addMessage ref n) :=
  .same (fun _ => stored_of_eq rfl) rfl fun _ => nofun

/-- The commit of a message. -/
private theorem memoryEffect_commit {ref : SessionRef} {m : Message}
    (h : (w.sessions pid ref).Holds c.convId m) (hφ : φ = .asked m ∨ φ = .answered m) :
    MemoryEffect s convId (.chat c agent) φ w (apiHandler pid agent (.commit ref) w).2 (.commit ref) := by
  obtain ⟨conv, hcontent, -, hm⟩ := h
  obtain ⟨-, hmessages, -, -⟩ := commit_of_content hcontent agent
  have hbuffers := @apiHandler_buffers pid (.commit ref) (fun cmds => nofun) agent w
  by_cases hconv : c.convId = convId
  · subst hconv
    exact .store m ⟨c, agent, rfl, rfl⟩ ⟨ref, rfl⟩ hφ hm hmessages hbuffers
  · refine .same (fun x => ?_) (by rw [hbuffers]) fun x => nofun
    rw [stored_append hmessages]
    refine or_iff_left ?_
    intro hx
    exact hconv (hm.symm.trans hx.1)

/-- The append of a message. -/
private theorem memoryEffect_push (x : ChatMessage) :
    MemoryEffect s convId (.chat c agent) φ w (apiHandler pid agent (.pipeline (appendCmds s c.convId x)) w).2
        (.pipeline (appendCmds s c.convId x)) := by
  have hbuffers : (apiHandler pid agent (.pipeline (appendCmds s c.convId x)) w).2.buffers =
      Function.update w.buffers (bufKey c.convId)
        (lastUpTo s.shortTermBufferSize (w.buffers (bufKey c.convId) ++ [x])) := append_buffers _ _
  by_cases hconv : c.convId = convId
  · subst hconv
    refine .push x ⟨c, agent, rfl, rfl⟩ rfl rfl ?_
    rw [hbuffers, Function.update_self]
  · refine .same (fun y => stored_of_eq rfl) ?_ fun y hy => ?_
    · rw [hbuffers, Function.update_of_ne fun h => hconv (bufKey_inj h).symm]
    · simp only [appendCmds, ApiOp.pipeline.injEq, List.cons.injEq, BufferCmd.rpush.injEq] at hy
      exact hconv (bufKey_inj hy.1.1)

/-- The warm-up. -/
private theorem memoryEffect_warm (x : ChatMessage) (ms : List ChatMessage) :
    MemoryEffect s convId (.chat c agent) (.snapshot x ms) w
      (apiHandler pid agent (.pipeline (warmupCmds s c.convId ms)) w).2
        (.pipeline (warmupCmds s c.convId ms)) := by
  have hbuffers : (apiHandler pid agent (.pipeline (warmupCmds s c.convId ms)) w).2.buffers =
      Function.update w.buffers (bufKey c.convId) (lastUpTo s.shortTermBufferSize ms) :=
      warmup_buffers _ _
  by_cases hconv : c.convId = convId
  · subst hconv
    refine .warm x ms ⟨c, agent, rfl, rfl⟩ rfl rfl rfl ?_
    rw [hbuffers, Function.update_self]
  · refine .same (fun y => stored_of_eq rfl) ?_ fun y => ?_
    · rw [hbuffers, Function.update_of_ne fun h => hconv (bufKey_inj h).symm]
    · simp [appendCmds, warmupCmds]

private theorem agentCall_no_pipeline (ho : AgentCall c o) (cmds : List BufferCmd) : o ≠ .pipeline cmds := by
  intro h
  subst h
  exact ho

/-- What a chat request's call does to the messages and to the buffer. -/
private theorem chat_memoryEffect (ha : (chatPhases s c).allows φ o) (h : ChatHolds c pid φ w) :
    MemoryEffect s convId (.chat c agent) φ w (apiHandler pid agent o w).2 o := by
  cases φ with
  | start =>
    obtain rfl : o = .getConversation .request c.convId c.userId := ha
    exact memoryEffect_quiet (Or.inr ⟨_, _, _, rfl⟩) fun cmds => nofun
  | found =>
    obtain rfl : o = .addMessage .request (question c) := ha
    exact memoryEffect_add .request (question c)
  | asked m =>
    obtain rfl : o = .commit .request := ha
    exact memoryEffect_commit h.1 (Or.inl rfl)
  | answered m =>
    obtain rfl : o = .commit .scope := ha
    exact memoryEffect_commit h.1 (Or.inr rfl)
  | answering =>
    rcases ha with ha | ⟨n, -, rfl⟩
    · exact memoryEffect_quiet (Or.inl (agentCall_content ha)) (agentCall_no_pipeline ha)
    · exact memoryEffect_add .scope n
  | ended => exact memoryEffect_quiet (Or.inl (agentCall_content ha)) (agentCall_no_pipeline ha)
  | stored m =>
    obtain rfl : o = .lrange (bufKey c.convId) 0 (-1) := ha
    exact memoryEffect_quiet (Or.inl id) fun cmds => nofun
  | empty m =>
    obtain rfl : o = .recentMessages .request c.convId 20 := ha
    exact memoryEffect_quiet (Or.inl id) fun cmds => nofun
  | snapshot m ms =>
    obtain rfl : o = .pipeline (if ms = [] then appendCmds s c.convId m else warmupCmds s c.convId ms) :=
      ha
    by_cases hms : ms = []
    · rw [if_pos hms]
      exact memoryEffect_push m
    · rw [if_neg hms]
      exact memoryEffect_warm m ms
  | warm m =>
    obtain rfl : o = .pipeline (appendCmds s c.convId m) := ha
    exact memoryEffect_push m
  | kept m =>
    obtain rfl : o = .pipeline (appendCmds s c.convId m) := ha
    exact memoryEffect_push m
  | refused => exact absurd ha id

/-- An upload touches neither. -/
private theorem upload_memoryEffect {u : UploadCall} (ho : UploadOp o)
    (h : RequestHolds (.upload u) pid φ w) :
    MemoryEffect s convId (.upload u) φ w (apiHandler pid agent o w).2 o := by
  have hp : ∀ cmds, o ≠ .pipeline cmds := by
    rintro cmds rfl
    exact ho
  obtain ⟨heff, -⟩ := @upload_call u pid agent w o φ ho h
  have hmessages : (apiHandler pid agent o w).2.messages = w.messages := by
    cases heff with
    | same messages conversations quiet => exact messages
    | commit ref conv m op content id messages conversations =>
      have hconv := (h ref).1
      simp only [Session.content, Prod.mk.injEq] at content
      rw [content.1] at hconv
      cases hconv
  refine .same (fun x => stored_of_eq hmessages) ?_ fun x => hp _
  rw [@apiHandler_buffers pid o hp agent w]

end Calls

end Effects

/-! ### What a request knows of the buffer -/

/-- What a request in the conversation knows of the buffer in each phase; `w₀` is the world before any
request. -/
def PhaseKnows (n : Nat) (convId : Uuid) (w₀ : ApiWorld) : ChatPhase → ApiWorld → Prop
  | .stored m, w | .empty m, w => Stored convId m w
  | .snapshot m ms, _ => m ∈ ms ∧ (∀ x, Stored convId x w₀ → x ∈ ms) ∧ ms.length ≤ n
  | .warm _, w | .answering, w | .answered _, w | .kept _, w | .ended, w => w.buffers (bufKey convId) ≠ []
  | _, _ => True

/-- The same for any request: one that does not ask in the conversation need know nothing. -/
def BufferKnows (n : Nat) (convId : Uuid) (w₀ : ApiWorld) (req : ApiRequest) (φ : ChatPhase)
    (w : ApiWorld) : Prop :=
  AsksIn convId req → PhaseKnows n convId w₀ φ w

section Knows

variable {s : BufferSettings} {convId : Uuid} {w₀ w w' : ApiWorld} {req : ApiRequest}
    {φ : ChatPhase} {o : ApiOp}

private theorem lastUpTo_of_length_le {n : Nat} {ms : List ChatMessage} (h : ms.length ≤ n) :
    lastUpTo n ms = ms := by
  unfold lastUpTo
  split
  · rfl
  · exact rtake_of_length_le h

private theorem mem_lastUpTo_append (n : Nat) (l : List ChatMessage) (x : ChatMessage) :
    x ∈ lastUpTo n (l ++ [x]) :=
  List.mem_of_getLast? (getLast?_lastUpTo_append n l x)

/-- What is stored stays stored. -/
private theorem MemoryEffect.stored (h : MemoryEffect s convId req φ w w' o) {x : ChatMessage}
    (hx : Stored convId x w) : Stored convId x w' := by
  cases h with
  | same messages buffer other => exact (messages x).mpr hx
  | store m asks op phase conv messages buffers => exact (stored_append messages).mpr (Or.inl hx)
  | push y asks op messages buffer => exact (stored_of_eq messages).mpr hx
  | warm y ms asks phase op messages buffer => exact (stored_of_eq messages).mpr hx

/-- A buffer is not emptied. -/
private theorem MemoryEffect.nonempty (h : MemoryEffect s convId req φ w w' o)
    (hk : BufferKnows s.shortTermBufferSize convId w₀ req φ w) (hb : w.buffers (bufKey convId) ≠ []) :
    w'.buffers (bufKey convId) ≠ [] := by
  cases h with
  | same messages buffer other =>
    rw [buffer]
    exact hb
  | store m asks op phase conv messages buffers =>
    rw [buffers]
    exact hb
  | push y asks op messages buffer =>
    rw [buffer]
    exact List.ne_nil_of_mem (mem_lastUpTo_append _ _ y)
  | warm y ms asks phase op messages buffer =>
    subst phase
    obtain ⟨hy, -, hlen⟩ := hk asks
    rw [buffer, lastUpTo_of_length_le hlen]
    exact List.ne_nil_of_mem hy

/-- What a request knows stays true while others act. -/
private theorem PhaseKnows.frame {n : Nat} (hk : PhaseKnows n convId w₀ φ w)
    (hs : ∀ x, Stored convId x w → Stored convId x w')
    (hb : w.buffers (bufKey convId) ≠ [] → w'.buffers (bufKey convId) ≠ []) :
    PhaseKnows n convId w₀ φ w' := by
  cases φ with
  | stored m => exact hs m hk
  | empty m => exact hs m hk
  | snapshot m ms => exact hk
  | warm m => exact hb hk
  | answering => exact hb hk
  | answered m => exact hb hk
  | kept m => exact hb hk
  | ended => exact hb hk
  | start => trivial
  | found => trivial
  | asked m => trivial
  | refused => trivial

/-- What `recent_messages` returns is everything, while there are at most 20 messages. -/
private theorem recent_all {pid : Nat} (hflushed : Flushed pid w) (hcount : messageCountOf convId w ≤ 20) :
    (∀ x, Stored convId x w → x ∈ (((w.newestFirst pid .request convId).take 20).reverse).map (·.toChat)) ∧
      ((((w.newestFirst pid .request convId).take 20).reverse).map (·.toChat)).length =
      messageCountOf convId w := by
  have hperm : (w.newestFirst pid .request convId).Perm (w.messages.filter (·.conversationId = convId)) := by
    unfold ApiWorld.newestFirst
    rw [show (w.sessions pid .request).newMessages = [] from hflushed, List.append_nil]
    exact List.perm_insertionSort _ _
  have hlen : (w.newestFirst pid .request convId).length = messageCountOf convId w := by
    rw [hperm.length_eq, ← List.countP_eq_length_filter]
    rfl
  rw [List.take_of_length_le (Nat.le_trans (Nat.le_of_eq hlen) hcount)]
  constructor
  · rintro x ⟨m, hm, hconv, rfl⟩
    refine List.mem_map.mpr ⟨m, List.mem_reverse.mpr (hperm.mem_iff.mpr ?_), rfl⟩
    simpa using ⟨hm, hconv⟩
  · rw [List.length_map, List.length_reverse, hlen]

variable {c : ChatCall} {pid : Nat} {agent : AgentReplies}

/-- What a request knows after a call that succeeds. -/
private theorem chat_knows_next (hs : s.shortTermBufferSize ≤ 20) (ha : (chatPhases s c).allows φ o)
    (hh : ChatHolds c pid φ w) (hk : PhaseKnows s.shortTermBufferSize c.convId w₀ φ w)
    (hold : ∀ x, Stored c.convId x w₀ → Stored c.convId x w)
    (hcount : messageCountOf c.convId w ≤ s.shortTermBufferSize) {a : o.Resp}
    (hr : (apiHandler pid agent o w).1 = .ok a) :
    PhaseKnows s.shortTermBufferSize c.convId w₀ ((chatPhases s c).next φ o a)
      (apiHandler pid agent o w).2 := by
  have heff : MemoryEffect s c.convId (.chat c agent) φ w (apiHandler pid agent o w).2 o :=
    chat_memoryEffect ha hh
  have hnonempty : w.buffers (bufKey c.convId) ≠ [] →
    (apiHandler pid agent o w).2.buffers (bufKey c.convId) ≠ [] :=
    heff.nonempty fun _ => hk
  cases φ with
  | start =>
    obtain rfl : o = .getConversation .request c.convId c.userId := ha
    show PhaseKnows _ _ _ (if a.isSome then ChatPhase.found else ChatPhase.refused) _
    split <;> trivial
  | found =>
    obtain rfl : o = .addMessage .request (question c) := ha
    trivial
  | asked m =>
    obtain rfl : o = .commit .request := ha
    obtain ⟨conv, hcontent, -, hm⟩ := hh.1
    obtain ⟨-, hmessages, -, -⟩ := commit_of_content hcontent agent
    exact (stored_append hmessages).mpr (Or.inr ⟨hm, rfl⟩)
  | stored m =>
    obtain rfl : o = .lrange (bufKey c.convId) 0 (-1) := ha
    have hread : lrange 0 (-1) (w.buffers (bufKey c.convId)) = a := Except.ok.inj hr
    rw [lrange_all] at hread
    show PhaseKnows _ _ _ (if a = [] then ChatPhase.empty m else ChatPhase.warm m) _
    split
    · exact heff.stored hk
    · rename_i hne
      refine hnonempty ?_
      rw [hread]
      exact hne
  | empty m =>
    obtain rfl : o = .recentMessages .request c.convId 20 := ha
    -- the query asks for more messages than the conversation has
    obtain ⟨hall, hlen⟩ := recent_all hh.2.1 (Nat.le_trans hcount hs)
    obtain rfl := Except.ok.inj hr
    exact ⟨hall m hk, fun x hx => hall x (hold x hx), Nat.le_trans (Nat.le_of_eq hlen) hcount⟩
  | snapshot m ms =>
    obtain rfl : o = .pipeline (if ms = [] then appendCmds s c.convId m else warmupCmds s c.convId ms) :=
      ha
    -- the question is among the messages that were read, so that the buffer is warmed
    obtain ⟨hm, -, hlen⟩ := hk
    have hms : ms ≠ [] := List.ne_nil_of_mem hm
    show PhaseKnows _ _ _ (if ms = [] then ChatPhase.answering else ChatPhase.warm m) _
    rw [if_neg hms, if_neg hms]
    show (apiHandler pid agent (.pipeline (warmupCmds s c.convId ms)) w).2.buffers (bufKey c.convId) ≠ []
    have hbuffers : (apiHandler pid agent (.pipeline (warmupCmds s c.convId ms)) w).2.buffers = _ :=
      warmup_buffers _ ms
    rw [hbuffers, Function.update_self, lastUpTo_of_length_le hlen]
    exact hms
  | warm m =>
    obtain rfl : o = .pipeline (appendCmds s c.convId m) := ha
    exact hnonempty hk
  | answering =>
    rcases ha with ha | ⟨n, -, rfl⟩
    · obtain ⟨-, hnext, -⟩ := @agentCall_stays s c .answering (Or.inl rfl) o ha
      rw [hnext a]
      exact hnonempty hk
    · exact hnonempty hk
  | answered m =>
    obtain rfl : o = .commit .scope := ha
    exact hnonempty hk
  | kept m =>
    obtain rfl : o = .pipeline (appendCmds s c.convId m) := ha
    exact hnonempty hk
  | ended =>
    obtain ⟨-, hnext, -⟩ := @agentCall_stays s c .ended (Or.inr rfl) o ha
    rw [hnext a]
    exact hnonempty hk
  | refused => exact absurd ha id

/-- What a request knows after a call that the handler answers with an exception. -/
private theorem chat_knows_failed (ha : (chatPhases s c).allows φ o) (hh : ChatHolds c pid φ w)
    (hk : PhaseKnows s.shortTermBufferSize c.convId w₀ φ w) (e : ApiErr) :
    PhaseKnows s.shortTermBufferSize c.convId w₀ ((chatPhases s c).failed φ o e)
      (apiHandler pid agent o w).2 := by
  have heff : MemoryEffect s c.convId (.chat c agent) φ w (apiHandler pid agent o w).2 o :=
    chat_memoryEffect ha hh
  have hnonempty : w.buffers (bufKey c.convId) ≠ [] →
    (apiHandler pid agent o w).2.buffers (bufKey c.convId) ≠ [] :=
    heff.nonempty fun _ => hk
  cases φ with
  | answering =>
    rcases ha with ha | ⟨n, -, rfl⟩
    · obtain ⟨-, -, hfail⟩ := @agentCall_stays s c .answering (Or.inl rfl) o ha
      rw [hfail e]
      exact hnonempty hk
    · exact hnonempty hk
  | answered m => exact hnonempty hk
  | kept m => exact hnonempty hk
  | ended => exact hnonempty hk
  | _ => trivial

end Knows

/-! ### Runs -/

section Runs

variable {cfg : ApiSettings} {worker : WorkerSettings} {convId : Uuid} {w₀ : ApiWorld} {s s' : ApiState}
    {l : ApiLabel}

private theorem request_memoryEffect {req : ApiRequest} {pid : Nat} {φ : ChatPhase} {w : ApiWorld} {o : ApiOp}
    (ha : (requestPhases cfg.buffer req).allows φ o) (h : RequestHolds req pid φ w) :
    MemoryEffect cfg.buffer convId req φ w ((apiService cfg worker).handle pid req o w).2 o := by
  cases req with
  | upload c => exact upload_memoryEffect ha h
  | chat c agent => exact chat_memoryEffect ha h

private theorem memoryOp_reply {o : ApiOp} (ho : MemoryOp o) (pid : Nat) (req : ApiRequest) (w : ApiWorld) :
    ∃ a, ((apiService cfg worker).handle pid req o w).1 = .ok a := by
  obtain ⟨agent, hagent⟩ := handle_eq cfg worker pid req
  rw [hagent]
  cases o with
  | lrange key start stop => exact ⟨_, rfl⟩
  | recentMessages ref convId n => exact ⟨_, rfl⟩
  | pipeline cmds => exact ⟨_, rfl⟩
  | _ => exact absurd ho id

/-- A request stays on its way to append the message, unless it does so in the step. -/
private theorem WillAppend.step {x : ChatMessage} (hx : WillAppend cfg convId s x) (hl : NoFailure l)
    (h : (apiService cfg worker).step s l = some s')
    (hother : ∀ pid out req o k, l = .call pid out → s.procs pid = some ⟨req, .call o k⟩ →
      o ≠ .pipeline (appendCmds cfg.buffer convId x)) : WillAppend cfg convId s' x := by
  obtain ⟨q, p, hp, hawaits⟩ := hx
  by_cases hq : l.pid = some q
  · rcases step_cases h with ⟨pid, r, rfl, hnone, rfl⟩ | ⟨pid, out, req, o, k, rfl, hproc, rfl⟩ |
      ⟨e, w, rfl, -, rfl⟩
    · obtain rfl : pid = q := Option.some.inj hq
      rw [hnone] at hp
      cases hp
    · obtain rfl : pid = q := Option.some.inj hq
      obtain rfl : out = .ok := hl
      obtain rfl : ⟨req, .call o k⟩ = p := Option.some.inj (hproc.symm.trans hp)
      rcases hawaits with hT | ⟨hN, hnext⟩
      · exact absurd hT (hother pid .ok req o k rfl hproc)
      · obtain ⟨a, ha⟩ := @memoryOp_reply cfg worker o hN pid req s.world
        refine ⟨pid, ⟨req, k (.ok a)⟩, ?_, hnext a⟩
        show (resume s _ pid req k (some _)).procs pid = _
        rw [ha]
        exact State.set_procs_self s _ pid _
    · cases hq
  · exact ⟨q, p, (step_procs hq h).trans hp, hawaits⟩

/-- Every request knows its phase, and every stored message is in the buffer, or on its way to it, or was
stored before the buffer was first warmed. -/
structure MemoryInv (cfg : ApiSettings) (convId : Uuid) (w₀ : ApiWorld) (s : ApiState) : Prop where
  phases : s.Obeys (requestPhases cfg.buffer) RequestEnds fun req pid φ w =>
    RequestHolds req pid φ w ∧ BufferKnows cfg.buffer.shortTermBufferSize convId w₀ req φ w
  old : ∀ x, Stored convId x w₀ → Stored convId x s.world
  covered : ∀ x, Stored convId x s.world → WillAppend cfg convId s x ∨
    x ∈ s.world.buffers (bufKey convId) ∨ s.world.buffers (bufKey convId) = [] ∧ Stored convId x w₀

private theorem MemoryInv.holds (hi : MemoryInv cfg convId w₀ s) : HoldsInv cfg s :=
  hi.phases.imp fun _ _ _ _ h => h.1

/-- A step keeps what is stored, and does not empty the buffer. -/
private theorem MemoryInv.mono (hi : MemoryInv cfg convId w₀ s)
    (h : (apiService cfg worker).step s l = some s') :
    (∀ x, Stored convId x s.world → Stored convId x s'.world) ∧
      (s.world.buffers (bufKey convId) ≠ [] → s'.world.buffers (bufKey convId) ≠ []) := by
  rcases step_cases h with ⟨pid, r, rfl, -, rfl⟩ | ⟨pid, out, req, o, k, rfl, hproc, rfl⟩ |
    ⟨e, w, rfl, hw, rfl⟩
  · exact ⟨fun _ hx => hx, id⟩
  · obtain ⟨φ, ⟨ha, -⟩, hholds, hknows⟩ := hi.phases pid _ hproc
    rw [resume_world]
    rcases Outcome.world_eq ((apiService cfg worker).handle pid req) o s.world out with hw | hw
    · rw [hw]
      exact ⟨fun _ hx => hx, id⟩
    · rw [hw]
      have heff := @request_memoryEffect cfg worker convId req pid φ s.world o ha hholds
      exact ⟨fun x hx => heff.stored hx, heff.nonempty hknows⟩
  · simp only [apiService, WorkerStep.step, Option.map_eq_some_iff] at hw
    obtain ⟨b, -, rfl⟩ := hw
    exact ⟨fun _ hx => hx, id⟩

/-- The phases after a step. -/
private theorem MemoryInv.phases_step (hs : cfg.buffer.shortTermBufferSize ≤ 20)
    (hi : MemoryInv cfg convId w₀ s) (hl : NoFailure l)
    (hcount : messageCountOf convId s.world ≤ cfg.buffer.shortTermBufferSize)
    (h : (apiService cfg worker).step s l = some s') :
    s'.Obeys (requestPhases cfg.buffer) RequestEnds fun req pid φ w => RequestHolds req pid φ w ∧
          BufferKnows cfg.buffer.shortTermBufferSize convId w₀ req φ w := by
  refine obeys_step ?_ ?_ ?_ hi.phases h
  · intro pid req w
    refine ⟨.start, request_phases cfg worker req, request_holds_start req pid w, fun _ => trivial⟩
  · intro pid req o k out φ rep hcall hproc ha hfits hrep
    subst hcall
    obtain rfl : out = .ok := hl
    obtain ⟨hreplies, hholds⟩ := request_holds_call ha hfits.1 hrep
    refine ⟨hreplies, hholds, ?_⟩
    rintro ⟨c, agent, rfl, rfl⟩
    have hknows := hfits.2 ⟨c, agent, rfl, rfl⟩
    have hr : (apiHandler pid agent o s.world).1 = rep := Option.some.inj hrep
    cases rep with
    | ok a => exact chat_knows_next hs ha hfits.1 hknows hi.old hcount hr
    | error e => exact chat_knows_failed ha hfits.1 hknows e
  · intro q p φ hq _ _ hfits
    obtain ⟨hsessions, hids⟩ := step_others hi.holds h hq
    obtain ⟨hstored, hnonempty⟩ := hi.mono h
    exact ⟨hfits.1.frame hsessions hids, fun hasks => (hfits.2 hasks).frame hstored hnonempty⟩

/-- A request appends to a buffer that is warm. -/
private theorem push_nonempty {c : ChatCall} {φ : ChatPhase} {w : ApiWorld} {x : ChatMessage}
    (ha : (chatPhases cfg.buffer c).allows φ (.pipeline (appendCmds cfg.buffer c.convId x)))
    (hk : PhaseKnows cfg.buffer.shortTermBufferSize c.convId w₀ φ w) : w.buffers (bufKey c.convId) ≠ [] := by
  cases φ with
  | warm m => exact hk
  | kept m => exact hk
  | answering => exact hk
  | ended => exact absurd ha id
  | snapshot m ms =>
    have hms : ms ≠ [] := List.ne_nil_of_mem hk.1
    have hop : ApiOp.pipeline (appendCmds cfg.buffer c.convId x) = .pipeline (if ms = [] then _ else _) :=
      ha
    rw [if_neg hms] at hop
    simp [appendCmds, warmupCmds] at hop
  | refused => exact absurd ha id
  | _ => cases ha

/-- What the commands of a step leave of the buffer. -/
private theorem DropsNothing.kept (worker : WorkerSettings) {pid : Nat} {out : Outcome ApiErr}
    {req : ApiRequest} {cmds : List BufferCmd} {k : Except ApiErr Unit → Api ApiReply}
    (hd : DropsNothing cfg convId s (.call pid out))
    (hproc : s.procs pid = some ⟨req, .call (.pipeline cmds) k⟩) {x : ChatMessage}
    (hx : x ∈ s.world.buffers (bufKey convId)) :
    x ∈ ((apiService cfg worker).handle pid req (.pipeline cmds) s.world).2.buffers (bufKey convId) ∨
      WillAppend cfg convId s x := by
  have hcmds : bufferCmdsOf s (.call pid out) = cmds := by
    unfold bufferCmdsOf
    simp only [hproc]
  obtain ⟨agent, hagent⟩ := handle_eq cfg worker pid req
  have hkept := hd x hx
  rw [hcmds] at hkept
  rw [hagent]
  exact hkept

/-- A request that has committed a message is on its way to append it. -/
private theorem willAppend_stored {pid : Nat} {c : ChatCall} {agent : AgentReplies} {φ : ChatPhase}
    {ref : SessionRef} {m : Message} {k : Except ApiErr Unit → Api ApiReply}
    (hphase : φ = .asked m ∨ φ = .answered m)
    (hobeys : (.call (.commit ref) k : Api ApiReply).Obeys (chatPhases cfg.buffer c) ChatEnds φ)
    (hh : ChatHolds c pid φ s.world) :
    WillAppend cfg c.convId (resume s
      ((apiService cfg worker).handle pid (.chat c agent) (.commit ref) s.world).2 pid
      (.chat c agent) k (some (apiHandler pid agent (.commit ref) s.world).1)) m.toChat := by
  obtain ⟨ha, hok, -⟩ := hobeys
  rcases hphase with rfl | rfl
  · obtain rfl : ref = .request := ApiOp.commit.inj ha
    obtain ⟨conv, hcontent, -, -⟩ := hh.1
    rw [(commit_of_content hcontent agent).1]
    refine ⟨pid, ⟨.chat c agent, k (.ok ())⟩, State.set_procs_self s _ pid _, ?_⟩
    exact owes_of_obeys rfl (hok () trivial)
  · obtain rfl : ref = .scope := ApiOp.commit.inj ha
    obtain ⟨conv, hcontent, -, -⟩ := hh.1
    rw [(commit_of_content hcontent agent).1]
    refine ⟨pid, ⟨.chat c agent, k (.ok ())⟩, State.set_procs_self s _ pid _, ?_⟩
    exact owes_of_obeys rfl (hok () trivial)

/-- Where the stored messages are after a call. -/
private theorem MemoryInv.covered_call {pid : Nat} {req : ApiRequest} {o : ApiOp}
    {k : Except ApiErr o.Resp → Api ApiReply} (hi : MemoryInv cfg convId w₀ s)
    (hd : DropsNothing cfg convId s (.call pid .ok)) (hproc : s.procs pid = some ⟨req, .call o k⟩)
    (h : (apiService cfg worker).step s (.call pid .ok) = some s')
    (hs' : s' = resume s ((apiService cfg worker).handle pid req o s.world).2 pid req k
      (some ((apiService cfg worker).handle pid req o s.world).1)) {x : ChatMessage}
        (hx : Stored convId x s'.world) :
    WillAppend cfg convId s' x ∨ x ∈ s'.world.buffers (bufKey convId) ∨
      s'.world.buffers (bufKey convId) = [] ∧ Stored convId x w₀ := by
  obtain ⟨φ, hobeys, hholds, hknows⟩ := hi.phases pid _ hproc
  have heff := @request_memoryEffect cfg worker convId req pid φ s.world o hobeys.1 hholds
  have hworld : s'.world = ((apiService cfg worker).handle pid req o s.world).2 := by
    rw [hs', resume_world]
  have hstep : ∀ {y}, WillAppend cfg convId s y → o ≠ .pipeline (appendCmds cfg.buffer convId y) →
      WillAppend cfg convId s' y := by
    intro y hy hne
    refine hy.step (show NoFailure (.call pid .ok) from rfl) h ?_
    intro pid' out' req' o' k' hl' hproc'
    cases hl'
    rw [hproc] at hproc'
    simp only [Option.some.injEq, Proc.mk.injEq, Prog.call.injEq] at hproc'
    rw [← hproc'.2.1]
    exact hne
  rw [← hworld] at heff
  cases heff with
  | same messages buffer other =>
    rw [buffer]
    rcases hi.covered x ((messages x).mp hx) with hwill | hrest
    · exact Or.inl (hstep hwill (other x))
    · exact Or.inr hrest
  | store m asks op phase conv messages buffers =>
    obtain ⟨ref, rfl⟩ := op
    rw [buffers]
    rcases (stored_append messages).mp hx with hx | ⟨-, rfl⟩
    · rcases hi.covered x hx with hwill | hrest
      · exact Or.inl (hstep hwill nofun)
      · exact Or.inr hrest
    · obtain ⟨c, agent, rfl, rfl⟩ := asks
      subst hs'
      exact Or.inl (willAppend_stored phase hobeys hholds)
  | push y asks op messages buffer =>
    subst op
    have hwill : WillAppend cfg convId s x → WillAppend cfg convId s' x ∨
        x ∈ s'.world.buffers (bufKey convId) := by
      intro hwill
      by_cases hxy : x = y
      · subst hxy
        rw [buffer]
        exact Or.inr (mem_lastUpTo_append _ _ x)
      · refine Or.inl (hstep hwill ?_)
        simp only [appendCmds, ne_eq, ApiOp.pipeline.injEq, List.cons.injEq, BufferCmd.rpush.injEq, true_and]
        intro hop
        exact hxy hop.1.symm
    rcases hi.covered x ((stored_of_eq messages).mp hx) with hx | hx | ⟨hempty, -⟩
    · exact (hwill hx).imp id Or.inl
    · rcases hd.kept worker hproc hx with hkept | hx
      · rw [← hworld] at hkept
        exact Or.inr (Or.inl hkept)
      · exact (hwill hx).imp id Or.inl
    · have hasks := asks
      obtain ⟨c, agent, rfl, rfl⟩ := asks
      exact absurd hempty (push_nonempty hobeys.1 (hknows hasks))
  | warm y ms asks phase op messages buffer =>
    subst op
    have hne : ApiOp.pipeline (warmupCmds cfg.buffer convId ms) ≠
        .pipeline (appendCmds cfg.buffer convId x) := by
      simp [appendCmds, warmupCmds]
    rcases hi.covered x ((stored_of_eq messages).mp hx) with hx | hx | ⟨hempty, hold⟩
    · exact Or.inl (hstep hx hne)
    · rcases hd.kept worker hproc hx with hkept | hx
      · rw [← hworld] at hkept
        exact Or.inr (Or.inl hkept)
      · exact Or.inl (hstep hx hne)
    · -- the snapshot has what was stored before the first warm-up
      subst phase
      obtain ⟨-, hall, hlen⟩ := hknows asks
      rw [buffer, lastUpTo_of_length_le hlen]
      exact Or.inr (Or.inl (hall x hold))

private theorem MemoryInv.step (hs : cfg.buffer.shortTermBufferSize ≤ 20) (hi : MemoryInv cfg convId w₀ s)
    (hl : NoFailure l) (hd : DropsNothing cfg convId s l)
    (hcount : messageCountOf convId s.world ≤ cfg.buffer.shortTermBufferSize)
    (h : (apiService cfg worker).step s l = some s') : MemoryInv cfg convId w₀ s' := by
  refine ⟨hi.phases_step hs hl hcount h, fun x hx => (hi.mono h).1 x (hi.old x hx), ?_⟩
  intro x hx
  -- a step that is no call leaves everyone on the way
  have hwill : (∀ pid out, l = .call pid out → False) → WillAppend cfg convId s x →
      WillAppend cfg convId s' x := by
    intro hne hwill
    refine hwill.step hl h ?_
    intro pid out req o k hcall
    exact (hne pid out hcall).elim
  rcases step_cases h with ⟨pid, r, rfl, -, rfl⟩ | ⟨pid, out, req, o, k, rfl, hproc, rfl⟩ |
    ⟨e, w, rfl, hw, rfl⟩
  · refine (hi.covered x hx).imp (hwill ?_) id
    intro pid' out heq
    cases heq
  · obtain rfl : out = .ok := hl
    exact hi.covered_call hd hproc h rfl hx
  · simp only [apiService, WorkerStep.step, Option.map_eq_some_iff] at hw
    obtain ⟨b, -, rfl⟩ := hw
    refine (hi.covered x hx).imp (hwill ?_) id
    intro pid out heq
    cases heq

private theorem memoryInv_idle {w : ApiWorld} (hw : bufferOf convId w = [] ∨ AllBuffered convId w) :
    MemoryInv cfg convId w (idle w) := by
  refine ⟨idle_obeys _ _ _ w, fun _ hx => hx, fun x hx => ?_⟩
  unfold AllBuffered bufferOf at hw
  simp only [lrange_all] at hw
  rcases hw with hempty | hall
  · exact Or.inr (Or.inr ⟨hempty, hx⟩)
  · exact Or.inr (Or.inl (hall x hx))

/-- The number of the messages of a conversation does not decrease. -/
private theorem count_step (hi : HoldsInv cfg s) (h : (apiService cfg worker).step s l = some s') :
    messageCountOf convId s.world ≤ messageCountOf convId s'.world := by
  rcases step_cases h with ⟨pid, r, rfl, -, rfl⟩ | ⟨pid, out, req, o, k, rfl, hproc, rfl⟩ |
    ⟨e, w, rfl, hw, rfl⟩
  · exact Nat.le_refl _
  · obtain ⟨φ, ⟨ha, -⟩, hholds⟩ := hi pid _ hproc
    rw [resume_world]
    rcases Outcome.world_eq ((apiService cfg worker).handle pid req) o s.world out with hw | hw
    · rw [hw]
    · rw [hw]
      have heff := @request_countEffect cfg worker req pid φ s.world o ha hholds
      unfold messageCountOf
      cases heff with
      | same messages conversations quiet => rw [messages]
      | commit ref conv m op content id messages conversations =>
        rw [messages, List.countP_append]
        exact Nat.le_add_right _ _
  · simp only [apiService, WorkerStep.step, Option.map_eq_some_iff] at hw
    obtain ⟨b, -, rfl⟩ := hw
    exact Nat.le_refl _

private theorem exists_answered {pid : Nat} (h : answeredIn s pid = some convId) :
    ∃ c agent, s.procs pid = some ⟨.chat c agent, .done (.ok .streamed)⟩ ∧ c.convId = convId := by
  unfold answeredIn at h
  split at h
  · rename_i c agent hproc
    exact ⟨c, agent, hproc, Option.some.inj h⟩
  · cases h

end Runs

/-- If no call fails and no pipeline drops an entry that nobody will append again, then all messages of a
conversation that has no more of them than the buffer holds are in the buffer whenever all requests are
over and one in the conversation has been answered. -/
theorem all_buffered (cfg : ApiSettings) (worker : WorkerSettings) (convId : Uuid)
    (hsize : cfg.buffer.shortTermBufferSize ≤ 20) {w : ApiWorld}
    (hw : bufferOf convId w = [] ∨ AllBuffered convId w) {ls : List ApiLabel} {t : ApiState}
    (hmeets : (apiService cfg worker).Meets (fun s l => NoFailure l ∧ DropsNothing cfg convId s l)
      (idle w) ls) (hrun : (apiService cfg worker).run (idle w) ls = some t)
    (hcount : messageCountOf convId t.world ≤ cfg.buffer.shortTermBufferSize) (hover : t.Finished) {pid : Nat}
    (hanswered : answeredIn t pid = some convId) : AllBuffered convId t.world := by
  have hback : ∀ s l s', HoldsInv cfg s → (apiService cfg worker).step s l = some s' →
      messageCountOf convId s'.world ≤ cfg.buffer.shortTermBufferSize →
        messageCountOf convId s.world ≤ cfg.buffer.shortTermBufferSize :=
    fun s l s' hi hs hle => Nat.le_trans (count_step hi hs) hle
  obtain ⟨-, hmeets⟩ :=
    Meets.and_of_end (fun _ _ _ hi hs => holds_step hi hs) hback (idle_obeys _ _ _ w) hmeets hrun hcount
  have hi : MemoryInv cfg convId w t :=
    run_induct (fun _ _ _ hi hm hs => hi.step hsize hm.1.1 hm.1.2 hm.2 hs)
    (memoryInv_idle hw) hmeets hrun
  -- the answered request has left the buffer warm
  obtain ⟨c, agent, hproc, hc⟩ := exists_answered hanswered
  obtain ⟨φ, hends, -, hknows⟩ := hi.phases pid _ hproc
  have hwarm : t.world.buffers (bufKey convId) ≠ [] := by
    have hphase := hknows ⟨c, agent, rfl, hc⟩
    rcases hends.2 _ rfl with rfl | rfl
    · exact hphase
    · exact hphase
  intro x hx
  rw [bufferOf, lrange_all]
  rcases hi.covered x hx with ⟨q, p, hp, hawaits⟩ | hmem | ⟨hempty, -⟩
  · obtain ⟨r, hr⟩ := hover q p hp
    rw [hr] at hawaits
    exact absurd hawaits id
  · exact hmem
  · exact absurd hempty hwarm

/-- Two requests both find the buffer empty and read both questions, and then both warm it. -/
def twoWarmupsRun : List ApiLabel :=
  [.start 0 (counterAsk "a"), .start 1 (counterAsk "b")] ++ List.replicate 3 (.call 0 .ok) ++
  List.replicate 5 (.call 1 .ok) ++
    List.replicate 4 (.call 0 .ok) ++ List.replicate 7 (.call 1 .ok) ++ List.replicate 5 (.call 0 .ok)

theorem all_buffered_twoWarmups : ∃ t,
    (apiService uploadCfg workerSettings).run (idle counterWorld) twoWarmupsRun = some t ∧
    AllBuffered 7 t.world := by
  have hg : ((apiService uploadCfg workerSettings).run (idle counterWorld) twoWarmupsRun).map
      (fun s => ((List.range 2).all s.isFinished, answeredIn s 0, decide (messageCountOf 7 s.world ≤ 20))) =
        some (true, some 7, true) := by decide +kernel
  obtain ⟨t, ht, hg⟩ := Option.map_eq_some_iff.mp hg
  simp only [Prod.mk.injEq, decide_eq_true_eq] at hg
  obtain ⟨hover, hanswered, hcount⟩ := hg
  have hkept : (apiService uploadCfg workerSettings).Meets (fun s l => NoFailure l ∧
    ∀ x ∈ s.world.buffers (bufKey 7), x ∈ (bufferCmdsOf s l).foldl BufferCmd.exec s.world.buffers (bufKey 7))
        (idle counterWorld) twoWarmupsRun := by
    decide +kernel
  refine ⟨t, ht, ?_⟩
  exact all_buffered uploadCfg workerSettings 7 (by decide) (Or.inl (by decide))
    (hkept.imp fun s l h => ⟨h.1, fun x hx => Or.inl (h.2 x hx)⟩) ht hcount
    (((idle_below 2 _).run (by decide) ht).finished hover) hanswered

/-- A request reads the messages, and warms the buffer only when another one has been appended to it. -/
def delayedWarmupRun : List ApiLabel :=
  [.start 0 (counterAsk "a"), .start 1 (counterAsk "b")] ++ List.replicate 5 (.call 0 .ok) ++
  List.replicate 7 (.call 1 .ok) ++ List.replicate 7 (.call 0 .ok) ++ List.replicate 5 (.call 1 .ok)

/-- A delayed warm-up loses a message. -/
theorem not_always_buffered :
    ¬ ∀ (cfg : ApiSettings) (worker : WorkerSettings) (convId : Uuid)
      (w : ApiWorld) (ls : List ApiLabel) (t : ApiState) (pid : Nat), cfg.buffer.shortTermBufferSize ≤ 20 →
        bufferOf convId w = [] ∨ AllBuffered convId w →
        (apiService cfg worker).Meets (fun _ l => NoFailure l) (idle w) ls →
        (apiService cfg worker).run (idle w) ls = some t →
        messageCountOf convId t.world ≤ cfg.buffer.shortTermBufferSize → t.Finished →
        answeredIn t pid = some convId → AllBuffered convId t.world := by
  intro h
  have hg : ((apiService uploadCfg workerSettings).run (idle counterWorld) delayedWarmupRun).map
      (fun s => ((List.range 2).all s.isFinished, answeredIn s 0, decide (messageCountOf 7 s.world ≤ 20),
        s.world.messages.any fun m => m.conversationId = 7 ∧ m.toChat = ⟨.user, "b"⟩,
          s.world.buffers (bufKey 7))) = some (true, some 7, true, true, [⟨.user, "a"⟩, ⟨.user, "a"⟩]) := by
    decide +kernel
  obtain ⟨t, ht, hg⟩ := Option.map_eq_some_iff.mp hg
  simp only [Prod.mk.injEq, decide_eq_true_eq] at hg
  obtain ⟨hover, hanswered, hcount, hmessages, hbuffer⟩ := hg
  have hall : AllBuffered 7 t.world :=
    h uploadCfg workerSettings 7 counterWorld delayedWarmupRun t 0 (by decide)
    (Or.inl (by decide)) (by decide +kernel) ht hcount
      (((idle_below 2 _).run (by decide) ht).finished hover) hanswered
  have hstored : Stored 7 ⟨.user, "b"⟩ t.world := by
    obtain ⟨m, hm, hkey⟩ := List.any_eq_true.mp hmessages
    obtain ⟨hconv, hchat⟩ := of_decide_eq_true hkey
    exact ⟨m, hm, hconv, hchat⟩
  have hlost := hall _ hstored
  rw [bufferOf, lrange_all, hbuffer] at hlost
  exact absurd hlost (by decide)

end LegalRag
