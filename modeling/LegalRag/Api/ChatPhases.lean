import LegalRag.Calls.Protocol
import LegalRag.Memory.ChatTurns

/-!
# The phases of a chat request

The question is inserted, committed, and appended to a buffer that has been made warm; the agent answers;
the answer is inserted, committed and appended.  `chatPhases` says which call comes in each phase, and
`chatStream_phases` that a request keeps to it.  A phase between a commit and the append that follows owes
the buffer a message (`ChatPhase.owes`), and so does the program (`owes_of_obeys`).
-/

namespace LegalRag

open Calls Prog

inductive ChatPhase where
  | start
  | found
  | asked (m : Message)
  | stored (m : ChatMessage)
  | empty (m : ChatMessage)
  | snapshot (m : ChatMessage) (ms : List ChatMessage)
  | warm (m : ChatMessage)
  | answering
  | answered (m : Message)
  | kept (m : ChatMessage)
  | ended
  | refused

/-- The message that has been committed and is still to be appended. -/
def ChatPhase.owes : ChatPhase → Option ChatMessage
  | .stored m | .empty m | .snapshot m _ | .warm m | .kept m => some m
  | _ => none

/-- The question of a request. -/
def question (c : ChatCall) : NewMessage := ⟨c.convId, .user, c.message, [], none, none⟩

/-- The calls that change neither the messages nor the buffer. -/
def AgentCall (c : ChatCall) : ApiOp → Prop
  | .enqueueJob function arg => function = "extract_facts" ∧ arg = toString c.convId
  | o => Quiet o

/-- What a chat request may call. -/
def chatPhases (s : BufferSettings) (c : ChatCall) : Protocol ApiCalls ApiErr ChatPhase where
  allows
    | .start, o => o = .getConversation .request c.convId c.userId
    | .found, o => o = .addMessage .request (question c)
    | .asked _, o => o = .commit .request
    | .stored _, o => o = .lrange (bufKey c.convId) 0 (-1)
    | .empty _, o => o = .recentMessages .request c.convId 20
    | .snapshot m ms, o =>
      o = .pipeline (if ms = [] then appendCmds s c.convId m else warmupCmds s c.convId ms)
    | .warm m, o | .kept m, o => o = .pipeline (appendCmds s c.convId m)
    | .answering, o => AgentCall c o ∨ ∃ n, n.conversationId = c.convId ∧ o = .addMessage .scope n
    | .answered _, o => o = .commit .scope
    | .ended, o => AgentCall c o
    | .refused, _ => False
  replies
    | .found, .addMessage _ n, m => m.toNewMessage = n
    | .answering, .addMessage _ n, m => m.toNewMessage = n
    | _, _, _ => True
  next
    | .start, .getConversation .., conv => if conv.isSome then .found else .refused
    | .found, .addMessage .., m => .asked m
    | .asked m, .commit _, _ => .stored m.toChat
    | .stored m, .lrange .., buf => if buf = [] then .empty m else .warm m
    | .empty m, .recentMessages .., ms => .snapshot m (ms.map (·.toChat))
    | .snapshot m ms, .pipeline _, _ => if ms = [] then .answering else .warm m
    | .warm _, .pipeline _, _ => .answering
    | .answering, .addMessage .., m => .answered m
    | .answered m, .commit _, _ => .kept m.toChat
    | .kept _, .pipeline _, _ => .ended
    | φ, _, _ => φ
  failed
    | .answering, .addMessage .., _ => .ended
    | .answering, _, _ => .answering
    | .answered _, _, _ | .kept _, _, _ | .ended, _, _ => .ended
    | _, _, _ => .refused

/-- A request that ends owes nothing, and if it succeeds it has come to the agent. -/
def ChatEnds {α : Type} (φ : ChatPhase) (r : Except ApiErr α) : Prop :=
  φ.owes = none ∧ ∀ a, r = .ok a → φ = .answering ∨ φ = .ended

private theorem chatEnds_error {α : Type} (e : ApiErr) :
    ChatEnds ChatPhase.refused (.error e : Except ApiErr α) :=
  ⟨rfl, nofun⟩

section Programs

variable {s : BufferSettings} {c : ChatCall}

/-- The agent's calls stay in a phase. -/
theorem agentCall_stays {φ : ChatPhase} (hφ : φ = .answering ∨ φ = .ended) {o : ApiOp} (ho : AgentCall c o) :
    (chatPhases s c).allows φ o ∧ (∀ a, (chatPhases s c).next φ o a = φ) ∧ ∀ e,
      (chatPhases s c).failed φ o e = φ := by
  rcases hφ with rfl | rfl
  · refine ⟨Or.inl ho, ?_, ?_⟩
    · cases o <;> first | exact absurd ho id | exact fun _ => rfl
    · cases o <;> first | exact absurd ho id | exact fun _ => rfl
  · refine ⟨ho, ?_, ?_⟩
    · cases o <;> first | exact absurd ho id | exact fun _ => rfl
    · cases o <;> exact fun _ => rfl

private theorem agent_stays {φ : ChatPhase} (hφ : φ = .answering ∨ φ = .ended) {α : Type} {p : Api α}
    (hp : p.Only (AgentCall c)) : p.Obeys (chatPhases s c) (fun ψ _ => ψ = φ) φ := by
  refine (obeys_of_follows (fun o ho => ?_) hp).mono fun ψ r h => h.1
  obtain ⟨ha, hnext, hfail⟩ := @agentCall_stays s c φ hφ o ho
  exact ⟨ha, fun a _ => ⟨trivial, hnext a⟩, hfail⟩

private theorem send_only (e : SseEvent) : (api (.send e)).Only (AgentCall c) := only_perform trivial

private theorem finishAnswer_only (u : Uuid) (st : GenState) : (finishAnswer c u st).Only (AgentCall c) := by
  refine only_bind (only_handle ?_ fun _ => only_done _) fun _ => send_only _
  exact only_bind (only_perform ⟨rfl, rfl⟩) fun _ => only_done _

private theorem onAgentEvent_only (evt : AgentEvent) (st : GenState) :
    (onAgentEvent evt st).Only (AgentCall c) := by
  cases evt with
  | done answer cs usage => exact only_done _
  | _ => exact only_bind (send_only _) fun _ => only_done _

private theorem agentLoop_only (summary : Option String) (st : GenState) :
    (forEach onAgentEvent (runAgentStream c.message c.convId c.userId c.tenantId summary) st).Only
      (AgentCall c) :=
  follows_forEach onAgentEvent_only (runAgentStream_follows trivial trivial trivial fun _ _ _ _ => trivial) _

/-- After a failure the client is told. -/
private theorem caught_phases {φ : ChatPhase} (hφ : φ = .answering ∨ φ = .ended) (r : Except ApiErr Unit) :
    ((.done r : Api Unit).handle fun e => api (.send (.error e.str))).Obeys (chatPhases s c) ChatEnds φ := by
  have howes : ∀ ψ : ChatPhase, ψ = φ → ψ.owes = none := by
    intro ψ h
    subst h
    rcases hφ with rfl | rfl <;> rfl
  refine (agent_stays hφ (only_handle (only_done r) fun e => send_only _)).mono fun ψ _ h => ?_
  refine ⟨howes ψ h, fun a _ => ?_⟩
  rw [h]
  exact hφ

/-- The answer is inserted, committed and appended. -/
private theorem persistAnswer_phases (u : Uuid) (st : GenState) :
    (persistAnswer s c u st).Obeys (chatPhases s c) (fun φ _ => φ = .ended) .answering := by
  rw [persistAnswer_eq]
  refine obeys_call (Or.inr ⟨_, rfl, rfl⟩) (fun m hm => ?_) fun e => rfl
  refine obeys_call rfl (fun _ _ => ?_) fun e => rfl
  have hchat : m.toChat = ⟨.assistant, st.fullAnswer⟩ := by
    rw [show m.toNewMessage = _ from hm]
    rfl
  refine obeys_call (congrArg (fun x => ApiOp.pipeline (appendCmds s c.convId x)) hchat.symm)
    (fun _ _ => ?_) fun e => rfl
  exact agent_stays (Or.inr rfl) (finishAnswer_only u st)

private theorem chatGen_phases (summary : Option String) (u : Uuid) :
    (chatGen s c summary u).Obeys (chatPhases s c) ChatEnds .answering := by
  rw [chatGen_eq]
  refine obeys_handle
    (obeys_bind ((agent_stays (Or.inl rfl) (agentLoop_only summary _)).mono fun ψ r h => ?_))
  subst h
  cases r with
  | error e => exact caught_phases (Or.inl rfl) _
  | ok r =>
    cases r with
    | done st => exact caught_phases (Or.inl rfl) _
    | yield st =>
      refine (persistAnswer_phases u st).mono fun φ r hφ => ?_
      subst hφ
      exact caught_phases (Or.inr rfl) r

/-- The question is appended, and then the agent answers. -/
private theorem appendQuestion_phases {φ : ChatPhase} {m : ChatMessage} (hm : m = ⟨.user, c.message⟩)
    (summary : Option String) (u : Uuid)
    (ha : (chatPhases s c).allows φ (.pipeline (appendCmds s c.convId m)))
    (hnext : (chatPhases s c).next φ (.pipeline (appendCmds s c.convId m)) () = .answering)
    (hfail : ∀ e, (chatPhases s c).failed φ (.pipeline (appendCmds s c.convId m)) e = .refused) :
    (appendMessage s c.convId .user c.message >>= fun _ => api .getArqPool >>= fun _ =>
      chatGen s c summary u).Obeys (chatPhases s c) ChatEnds φ := by
  subst hm
  refine obeys_call ha (fun _ _ => ?_) fun e => ?_
  · rw [hnext]
    refine obeys_call (Or.inl trivial) (fun _ _ => chatGen_phases summary u) fun e => ?_
    exact ⟨rfl, nofun⟩
  · rw [hfail]
    exact chatEnds_error e

private theorem chatTurn_phases (summary : Option String) :
    (chatTurn s c summary).Obeys (chatPhases s c) ChatEnds .found := by
  refine obeys_call rfl (fun m hm => ?_) fun e => chatEnds_error e
  have hchat : m.toChat = ⟨.user, c.message⟩ := by
    rw [show m.toNewMessage = _ from hm]
    rfl
  refine obeys_call rfl (fun _ _ => ?_) fun e => chatEnds_error e
  -- the buffer is read, and warmed if it is empty
  refine obeys_call rfl (fun buf _ => ?_) fun e => chatEnds_error e
  by_cases hbuf : buf = []
  · subst hbuf
    refine obeys_call rfl (fun ms _ => ?_) fun e => chatEnds_error e
    by_cases hms : ms = []
    · subst hms
      exact appendQuestion_phases hchat summary m.id rfl rfl fun _ => rfl
    · have hmap : ms.map (·.toChat) ≠ [] := fun h => hms (List.map_eq_nil_iff.mp h)
      have hempty : (ms.map (·.toChat)).isEmpty = false := by simpa using hms
      show ((warmupFromDb s c.convId (ms.map (·.toChat)) >>= fun _ =>
        appendMessage s c.convId .user c.message >>= fun _ =>
        api .getArqPool >>= fun _ => chatGen s c summary m.id).Obeys (chatPhases s c) ChatEnds
          (.snapshot m.toChat (ms.map (·.toChat))))
      unfold warmupFromDb
      rw [hempty]
      refine obeys_call ?_ (fun _ _ => ?_) fun e => chatEnds_error e
      · show _ = ApiOp.pipeline (if ms.map (·.toChat) = [] then _ else _)
        rw [if_neg hmap]
      · show Obeys _ _ (if ms.map (·.toChat) = [] then ChatPhase.answering else ChatPhase.warm m.toChat) _
        rw [if_neg hmap]
        exact appendQuestion_phases hchat summary m.id rfl rfl fun _ => rfl
  · have hempty : buf.isEmpty = false := by simpa using hbuf
    show (((if buf.isEmpty then (do
        let msgs ← api (.recentMessages .request c.convId 20)
        warmupFromDb s c.convId (msgs.map (·.toChat))) else pure ()) >>= fun _ =>
      appendMessage s c.convId .user c.message >>= fun _ => api .getArqPool >>= fun _ =>
      chatGen s c summary m.id).Obeys
        (chatPhases s c) ChatEnds (if buf = [] then .empty m.toChat else .warm m.toChat))
    rw [hempty, if_neg hbuf]
    exact appendQuestion_phases hchat summary m.id rfl rfl fun _ => rfl

/-- A chat request keeps to its phases. -/
theorem chatStream_phases : (chatStream s c).Obeys (chatPhases s c) ChatEnds .start := by
  rw [chatStream_eq]
  refine obeys_call rfl (fun conv _ => ?_) fun e => chatEnds_error e
  cases conv with
  | none => exact chatEnds_error _
  | some conv => exact chatTurn_phases conv.summary

/-- The calls by which a request comes to the append of a message that it has committed. -/
def MemoryOp : ApiOp → Prop
  | .lrange .. | .recentMessages .. | .pipeline _ => True
  | _ => False

/-- A request that owes the buffer a message comes to append it. -/
theorem owes_of_obeys {α : Type} {φ : ChatPhase} {m : ChatMessage} (hφ : φ.owes = some m) {p : Api α}
    (hp : p.Obeys (chatPhases s c) ChatEnds φ) :
    p.Awaits MemoryOp (· = ApiOp.pipeline (appendCmds s c.convId m)) := by
  refine awaits_of_obeys (fun ψ : ChatPhase => ψ.owes = some m) ?_ ?_ hφ hp
  · intro ψ o hψ ha
    cases ψ with
    | stored x =>
      obtain rfl : o = .lrange (bufKey c.convId) 0 (-1) := ha
      refine Or.inr ⟨trivial, fun a => ⟨trivial, ?_⟩⟩
      show (if a = [] then ChatPhase.empty x else ChatPhase.warm x).owes = some m
      split <;> exact hψ
    | empty x =>
      obtain rfl : o = .recentMessages .request c.convId 20 := ha
      exact Or.inr ⟨trivial, fun a => ⟨trivial, hψ⟩⟩
    | snapshot x ms =>
      obtain rfl : x = m := Option.some.inj hψ
      by_cases hms : ms = []
      · have ho : o = .pipeline (if ms = [] then appendCmds s c.convId x else warmupCmds s c.convId ms) :=
          ha
        rw [if_pos hms] at ho
        exact Or.inl ho
      · obtain rfl : o =
            .pipeline (if ms = [] then appendCmds s c.convId x else warmupCmds s c.convId ms) := ha
        refine Or.inr ⟨trivial, fun a => ⟨trivial, ?_⟩⟩
        show (if ms = [] then ChatPhase.answering else ChatPhase.warm x).owes = some x
        rw [if_neg hms]
        rfl
    | warm x =>
      obtain rfl : x = m := Option.some.inj hψ
      exact Or.inl ha
    | kept x =>
      obtain rfl : x = m := Option.some.inj hψ
      exact Or.inl ha
    | _ => cases hψ
  · intro ψ r hψ hr
    rw [hr.1] at hψ
    cases hψ

end Programs

end LegalRag
