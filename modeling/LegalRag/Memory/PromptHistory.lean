import LegalRag.Memory.ChatTurns

/-!
# The question in the prompt

The route appends the question to the buffer before the agent runs; the agent takes its history from the
buffer, and the prompt builder appends the question to that history.  Whatever was in the database and in
the buffer before, the prompt of a request holds the question twice in a row (`prompts_spec`), so no
prompt is the history stored before the request followed by the question once (`not_promptOk`).
-/

namespace LegalRag

open Calls Redis

/-- The message list of a call to the model. -/
def promptOf : ApiOp → Option (List ChatMessage)
  | .completeStream msgs => some msgs
  | _ => none

/-- The message lists that a program hands to `complete_stream`. -/
def prompts {α : Type} (h : Handler ApiCalls ApiErr ApiWorld) (p : Api α) (w : ApiWorld) :
    List (List ChatMessage) :=
  p.seen (fun o _ => promptOf o) h w

/-- One system message, the last `n` of the messages stored before the request, and the question, which is
not the last of those as well. -/
def PromptOk (n : Nat) (before : List ChatMessage) (m : String) (msgs : List ChatMessage) : Prop :=
  msgs.head?.map ChatMessage.role = some .system ∧ msgs.tail = before.rtake n ++ [⟨.user, m⟩] ∧
    (before.rtake n).getLast? ≠ some ⟨.user, m⟩

instance (n : Nat) (before : List ChatMessage) (m : String) (msgs : List ChatMessage) :
    Decidable (PromptOk n before m msgs) := inferInstanceAs (Decidable (_ ∧ _ ∧ _))

/-- A system message, a history that ends with the question, and the question. -/
def AsksTwice (m : String) (msgs : List ChatMessage) : Prop :=
  ∃ sys history, msgs = ⟨.system, sys⟩ :: (history ++ [⟨.user, m⟩]) ∧ history.getLast? = some ⟨.user, m⟩

private theorem AsksTwice.not_ok {m : String} {msgs : List ChatMessage} (h : AsksTwice m msgs) (n : Nat)
    (before : List ChatMessage) : ¬ PromptOk n before m msgs := by
  obtain ⟨sys, history, rfl, hlast⟩ := h
  rintro ⟨-, htail, hne⟩
  rw [List.tail_cons] at htail
  rw [← List.append_cancel_right htail] at hne
  exact hne hlast

/-- The buffer ends with the question. -/
def BufferAsks (c : ChatCall) (w : ApiWorld) : Prop :=
  (w.buffers (bufKey c.convId)).getLast? = some ⟨.user, c.message⟩

/-- A history that is read from a buffer that ends with the question ends with it. -/
def ReadsQuestion (c : ChatCall) : (o : ApiOp) → o.Resp → Prop
  | .lrange key start stop, history =>
    key = bufKey c.convId → start = 0 → stop = -1 → history.getLast? = some ⟨.user, c.message⟩
  | _, _ => True

/-- A quiet call, and a prompt only if it asks twice. -/
def AsksQuietly (c : ChatCall) (o : ApiOp) : Prop :=
  Quiet o ∧ ∀ msgs, promptOf o = some msgs → AsksTwice c.message msgs

variable (rid : Nat) (agent : AgentReplies) (s : BufferSettings) {c : ChatCall} {w : ApiWorld}

private theorem bufferAsks_call {o : ApiOp} (ho : AsksQuietly c o) (hw : BufferAsks c w) :
    BufferAsks c (apiHandler rid agent o w).2 := by
  have hframe := frame_quiet rid agent o w ho.1
  simp only [frame, Prod.mk.injEq] at hframe
  rw [BufferAsks, hframe.2.1]
  exact hw

private theorem readsQuestion_reply {o : ApiOp} {r : o.Resp} (hw : BufferAsks c w)
    (hr : (apiHandler rid agent o w).1 = .ok r) : ReadsQuestion c o r := by
  cases o with
  | lrange key start stop =>
    rintro rfl rfl rfl
    have hread : lrange 0 (-1) (w.buffers (bufKey c.convId)) = r := Except.ok.inj hr
    rw [← hread, lrange_all]
    exact hw
  | _ => trivial

private theorem asksQuietly_onAgentEvent (evt : AgentEvent) (g : GenState) :
    (onAgentEvent evt g).Follows (ReadsQuestion c) (AsksQuietly c) fun _ => True := by
  have hsend : ∀ e (r : ForInStep GenState),
    (api (.send e) >>= fun _ => pure r : Api _).Follows (ReadsQuestion c) (AsksQuietly c) fun _ => True :=
    fun e r => Prog.follows_bind ((Prog.follows_perform ⟨trivial, nofun⟩).mono fun _ _ => trivial)
  cases evt with
  | done answer cs usage => trivial
  | _ => exact hsend _ _

/-- The loop over the agent's events, when the buffer ends with the question. -/
private theorem prompts_loop (hw : BufferAsks c w) (summary : Option String) (g : GenState) :
    ∀ msgs ∈ prompts (apiHandler rid agent)
      (Prog.forEach onAgentEvent (runAgentStream c.message c.convId c.userId c.tenantId summary) g) w,
      AsksTwice c.message msgs := by
  have hagent : (runAgentStream c.message c.convId c.userId c.tenantId summary).Follows
      (Prog.ownReply (ReadsQuestion c)) (Prog.own (AsksQuietly c)) fun _ => True := by
    refine runAgentStream_follows ⟨trivial, nofun⟩ ⟨trivial, nofun⟩ ⟨trivial, nofun⟩
      fun history facts docs hh => ?_
    refine ⟨trivial, fun msgs hmsgs => ?_⟩
    cases hmsgs
    exact ⟨_, history, rfl, hh rfl rfl rfl⟩
  intro msgs hmem
  obtain ⟨⟨o, v⟩, he, ho⟩ := List.mem_filterMap.mp hmem
  have hcall := Prog.log_of_follows (fun o v ho hv => bufferAsks_call rid agent ho hv)
    (fun o v r hv hr => readsQuestion_reply rid agent hv hr)
    (Prog.follows_forEach asksQuietly_onAgentEvent hagent g) hw _ he
  exact hcall.2 msgs ho

/-- A call without a prompt. -/
def NoPrompt (o : ApiOp) : Prop := promptOf o = none

private theorem prompts_of_only {α : Type} {p : Api α} (hp : p.Only NoPrompt)
    (h : Handler ApiCalls ApiErr ApiWorld) (w : ApiWorld) : prompts h p w = [] :=
  Prog.seen_of_only (I := ApiCalls) (P := NoPrompt) (f := fun o _ => promptOf o) (fun _ _ ho => ho) hp h w

private theorem prompts_bind {α β : Type} (h : Handler ApiCalls ApiErr ApiWorld) (p : Api α) (f : α → Api β)
    (w : ApiWorld) :
    prompts h (p >>= f) w = prompts h p w ++ prompts h (Prog.cont f (p.exec h w).1) (p.exec h w).2 :=
  Prog.seen_bind _ h p f w

private theorem prompts_call {α : Type} (o : ApiOp) (ho : NoPrompt o) (h : Handler ApiCalls ApiErr ApiWorld)
    (k : Except ApiErr (ApiCalls.Resp o) → Api α) (w : ApiWorld) :
    prompts h (.call o k) w = prompts h (k (h o w).1) (h o w).2 := by
  rw [prompts, Prog.seen_call, ho]
  rfl

private theorem prompts_handle {α : Type} {k : ApiErr → Api α} (hk : ∀ e, (k e).Only NoPrompt)
    (h : Handler ApiCalls ApiErr ApiWorld) (p : Api α) (w : ApiWorld) :
    prompts h (p.handle k) w = prompts h p w :=
  Prog.seen_handle_of_only (I := ApiCalls) (P := NoPrompt) (f := fun o _ => promptOf o)
    (fun _ _ ho => ho) hk h p w

private theorem persistAnswer_only (u : Uuid) (g : GenState) : (persistAnswer s c u g).Only NoPrompt := by
  refine Prog.only_bind (Prog.only_perform rfl) fun _ =>
    Prog.only_bind (Prog.only_perform rfl) fun _ => ?_
  refine Prog.only_bind (Prog.only_perform rfl) fun _ => ?_
  refine Prog.only_bind (Prog.only_handle ?_ fun _ => Prog.only_done _) fun _ => Prog.only_perform rfl
  exact Prog.only_bind (Prog.only_perform rfl) fun _ => Prog.only_done _

private theorem prompts_chatGen (hw : BufferAsks c w) (summary : Option String) (u : Uuid) :
    ∀ msgs ∈ prompts (apiHandler rid agent) (chatGen s c summary u) w, AsksTwice c.message msgs := by
  have hafter : ∀ r : Except ApiErr (ForInStep GenState), (Prog.cont (afterLoop s c u) r).Only NoPrompt := by
    rintro (e | r)
    · exact Prog.only_done _
    · cases r with
      | done g => exact Prog.only_done _
      | yield g => exact persistAnswer_only s u g
  have hsend : ∀ e : ApiErr, (api (.send (.error e.str))).Only NoPrompt := fun e => Prog.only_perform rfl
  rw [chatGen_eq, prompts_handle hsend, prompts_bind, prompts_of_only (hafter _), List.append_nil]
  exact prompts_loop rid agent hw summary _

private theorem bufferAsks_append (w : ApiWorld) :
    BufferAsks c (apiHandler rid agent (.pipeline (appendCmds s c.convId ⟨.user, c.message⟩)) w).2 := by
  have hbuf : (apiHandler rid agent (.pipeline (appendCmds s c.convId ⟨.user, c.message⟩)) w).2.buffers
      (bufKey c.convId) = lastUpTo s.shortTermBufferSize
        (w.buffers (bufKey c.convId) ++ [⟨.user, c.message⟩]) := by
    simp [apiHandler, apiReply, ApiWorld.tick, appendCmds, BufferCmd.exec, ltrim_neg]
  rw [BufferAsks, hbuf, getLast?_lastUpTo_append]

/-- What is left of a turn once the buffer is warm. -/
def askTurn (s : BufferSettings) (c : ChatCall) (summary : Option String) (u : Uuid) : Api Unit :=
  .call (.pipeline (appendCmds s c.convId ⟨.user, c.message⟩)) (Prog.cont fun _ : Unit =>
    .call .getArqPool (Prog.cont fun _ : Unit => chatGen s c summary u))

private theorem prompts_askTurn (summary : Option String) (u : Uuid) (w : ApiWorld) :
    ∀ msgs ∈ prompts (apiHandler rid agent) (askTurn s c summary u) w, AsksTwice c.message msgs := by
  have hasked := bufferAsks_append rid agent s (c := c) w
  have hpool : BufferAsks c (apiHandler rid agent .getArqPool _).2 :=
    bufferAsks_call rid agent ⟨trivial, nofun⟩ hasked
  have hreply : ∀ cmds v, (apiHandler rid agent (.pipeline cmds) v).1 = .ok () := fun _ _ => rfl
  have hpoolReply : ∀ v, (apiHandler rid agent .getArqPool v).1 = .ok () := fun _ => rfl
  rw [askTurn, prompts_call (.pipeline (appendCmds s c.convId ⟨.user, c.message⟩)) rfl, hreply, Prog.cont_ok,
    prompts_call .getArqPool rfl, hpoolReply, Prog.cont_ok]
  exact prompts_chatGen rid agent s hpool summary u

private theorem prompts_cont {α β : Type} {h : Handler ApiCalls ApiErr ApiWorld} {f : α → Api β}
    {Q : List ChatMessage → Prop} (hf : ∀ a v, ∀ msgs ∈ prompts h (f a) v, Q msgs) (r : Except ApiErr α)
    (v : ApiWorld) : ∀ msgs ∈ prompts h (Prog.cont f r) v, Q msgs := by
  cases r with
  | ok a => exact hf a v
  | error e => simp [prompts, Prog.seen_done]

private theorem prompts_chatTurn (c : ChatCall) (summary : Option String) (w : ApiWorld) :
    ∀ msgs ∈ prompts (apiHandler rid agent) (chatTurn s c summary) w, AsksTwice c.message msgs := by
  rw [chatTurn_eq, prompts_call (.addMessage .request _) rfl]
  refine prompts_cont (fun m v => ?_) _ _
  rw [prompts_call (.commit .request) rfl]
  refine prompts_cont (fun _ v => ?_) _ _
  rw [prompts_bind, prompts_of_only (ensureBuffer_only s rfl rfl fun _ => rfl), List.nil_append]
  exact prompts_cont (fun _ v => prompts_askTurn rid agent s summary m.id v) _ _

/-- Every prompt of a chat request asks the question twice, whatever the database and the buffer held
before. -/
private theorem prompts_chatStream (c : ChatCall) (w : ApiWorld) :
    ∀ msgs ∈ prompts (apiHandler rid agent) (chatStream s c) w, AsksTwice c.message msgs := by
  rw [chatStream_eq, prompts_call (.getConversation .request c.convId c.userId) rfl]
  refine prompts_cont (fun conv v => ?_) _ _
  cases conv with
  | none => simp [prompts, Prog.seen_done]
  | some conv => exact prompts_chatTurn rid agent s c conv.summary v

/-- No prompt of a chat request is the history stored before it, followed by the question once. -/
theorem not_promptOk (c : ChatCall) (w : ApiWorld) {msgs : List ChatMessage}
    (h : msgs ∈ prompts (apiHandler rid agent) (chatStream s c) w) :
    ¬ PromptOk s.shortTermBufferSize (history c.convId w) c.message msgs :=
  (prompts_chatStream rid agent s c w msgs h).not_ok _ _

/-- How the agent's calls reply when nothing is found and the model answers with one word. -/
def oneWord : AgentReplies := ⟨.ok [], .ok [], .ok ⟨[⟨[some "Có"], none⟩], none⟩⟩

/-- A conversation of user 1 with nothing said in it. -/
def newConversation : ApiWorld :=
  ⟨10, 100, [⟨1, 1, none, 0⟩], [], [], fun _ _ => Session.fresh, fun _ => none, fun _ => [], none,
    ⟨fun _ => [], [], []⟩⟩

theorem not_promptOk_new :
    ∃ msgs ∈ prompts (apiHandler 0 oneWord) (chatStream ⟨20, 86400⟩ ⟨1, 1, 1, "Xin chào"⟩) newConversation,
      ¬ PromptOk 20 (history 1 newConversation) "Xin chào" msgs := by
  have hlen : (prompts (apiHandler 0 oneWord) (chatStream ⟨20, 86400⟩ ⟨1, 1, 1, "Xin chào"⟩)
      newConversation).length = 1 := by
    decide +kernel
  obtain ⟨msgs, hmsgs⟩ := List.length_eq_one_iff.mp hlen
  have hmem : msgs ∈ prompts (apiHandler 0 oneWord) (chatStream ⟨20, 86400⟩ ⟨1, 1, 1, "Xin chào"⟩)
      newConversation := by
    simp [hmsgs]
  exact ⟨msgs, hmem, not_promptOk 0 oneWord ⟨20, 86400⟩ ⟨1, 1, 1, "Xin chào"⟩ newConversation hmem⟩

/-- The first question of a conversation reaches the model three times. -/
theorem first_prompt :
    (prompts (apiHandler 0 oneWord) (chatStream ⟨20, 86400⟩ ⟨1, 1, 1, "Xin chào"⟩) newConversation).map
      List.tail =
        [[⟨.user, "Xin chào"⟩, ⟨.user, "Xin chào"⟩, ⟨.user, "Xin chào"⟩]] ∧
      ¬ ∀ msgs ∈ prompts (apiHandler 0 oneWord) (chatStream ⟨20, 86400⟩ ⟨1, 1, 1, "Xin chào"⟩)
        newConversation, PromptOk 20 (history 1 newConversation) "Xin chào" msgs := by
  constructor <;> decide +kernel

end LegalRag
