import LegalRag.Memory.ChatTurns
import LegalRag.Retrieval.Sources

/-!
# The documents that a request names

`ChatRequest` has a field `doc_ids`, "chọn doc_ids cụ thể để hỏi (RAG narrow scope)", which `chat_stream`
does not read: neither the agent nor the retrieval gets it.  `narrowScope_iff` says when a request with
`doc_ids` keeps to these documents all the same: when the vector store has no others for the user.
-/

namespace LegalRag

open Calls Prog

/-- The body of a chat request. -/
structure ChatRequest where
  message : String
  docIds : Option (List Uuid)
  deriving DecidableEq, Repr

/-- `chat_stream` with its body. -/
def answerRequest (s : BufferSettings) (convId userId tenantId : Uuid) (req : ChatRequest) : Api Unit :=
  chatStream s ⟨convId, userId, tenantId, req.message⟩

/-- What the agent's state keeps of a chunk. -/
structure RetrievedDoc.Shows (d : RetrievedDoc) (c : RetrievedChunk) : Prop where
  docId : d.docId = c.docId
  chunkId : d.chunkId = c.chunkId
  docTitle : d.docTitle = c.docTitle
  headingPath : d.headingPath = c.headingPath
  pages : d.pageFrom = c.pageFrom ∧ d.pageTo = c.pageTo
  text : d.text = c.text

/-- A result of `retrieve_and_rerank` as the agent calls it, when the vector store has the points `Pts`:
the caches, the models and the rerankers reply anything. -/
def Retrieved (x : RetrievalSetup) (message : String) (tenantId userId : Uuid) (Pts : Set Point)
    (docs : List RetrievedDoc) : Prop :=
  ∃ (W : Type) (h : Handler LlmCalls LlmErr W) (w : W) (order : List Nat) (chunks : List RetrievedChunk),
    (∀ o v, FromPoints Pts o (h o v).1) ∧
    ((retrieveAndRerank x order message tenantId (some userId) none 20 5 true).exec h w).1 = .ok chunks ∧
      List.Forall₂ RetrievedDoc.Shows docs chunks

/-- All are of the documents `D`. -/
def OfDocs (D : List Uuid) (cs : List Citation) : Prop := ∀ c ∈ cs, c.docId ∈ D.map toString

/-- A prompt is made of chunks of `D`, and citations that are sent or stored are of `D`. -/
def InScope (D : List Uuid) : ApiOp → Prop
  | .completeStream msgs => ∃ message history summary facts docs,
      msgs = buildAnswerMessages message history summary facts docs ∧ OfDocs D (docs.map (·.toCitation))
  | .send (.citations cs) => OfDocs D cs
  | .send (.done _ cs _) => OfDocs D cs
  | .addMessage _ m => OfDocs D m.citations
  | _ => True

/-- A request that names documents keeps to them, whatever is retrieved from the points `Pts`. -/
def NarrowScope (x : RetrievalSetup) (s : BufferSettings) (convId userId tenantId : Uuid)
    (req : ChatRequest) (Pts : Set Point) : Prop :=
  ∀ D, req.docIds = some D → ∀ rid agent (w : ApiWorld),
    (∀ docs, agent.retrieved = .ok docs → Retrieved x req.message tenantId userId Pts docs) →
      ∀ e ∈ (answerRequest s convId userId tenantId req).log (apiHandler rid agent) (w.openSessions rid),
        InScope D e.1

section Kept

variable {x : RetrievalSetup} {s : BufferSettings} {c : ChatCall} {D : List Uuid} {Pts : Set Point}
  {message : String} {tenantId userId : Uuid} {docs : List RetrievedDoc}

/-- The documents of what is retrieved are those of points of the user. -/
private theorem Retrieved.docId (h : Retrieved x message tenantId userId Pts docs) {d : RetrievedDoc}
    (hd : d ∈ docs) : ∃ p ∈ Pts, ownPoint tenantId userId p = true ∧ d.docId = p.docId := by
  obtain ⟨W, g, w, order, chunks, hpoints, hexec, hshows⟩ := h
  have hsources :=
    (@retrieveAndRerank_sources Pts x tenantId userId order message 20 5 true).exec hpoints w
  rw [hexec] at hsources
  obtain ⟨ch, hch, hshow⟩ := Related.exists_right hshows hd
  obtain ⟨p, hp, hown, score, final, rfl⟩ := hsources ch hch
  exact ⟨p, hp, hown, hshow.docId⟩

/-! ### The calls of a request -/

/-- What the retrieval replies is of `D`. -/
def RepliesOfDocs (D : List Uuid) : (o : ApiOp) → o.Resp → Prop
  | .retrieveAndRerank .., docs => OfDocs D (docs.map (·.toCitation))
  | _, _ => True

/-- The citations that the agent yields are of `D`. -/
def YieldsOfDocs (D : List Uuid) : AgentEvent → Prop
  | .citations cs => OfDocs D cs
  | .done _ cs _ => OfDocs D cs
  | _ => True

abbrev AgentInScope (D : List Uuid) {α : Type} (post : α → Prop) (p : AgentGen α) : Prop :=
  p.Follows (ownReply (RepliesOfDocs D)) (ownYields (InScope D) (YieldsOfDocs D)) post

private theorem streamChunks_inScope (cs : List LlmChunk) (acc : List String × Option Usage) :
    AgentInScope D (fun _ => True) (streamChunks cs acc) := by
  induction cs generalizing acc with
  | nil => trivial
  | cons chunk cs ih =>
    obtain ⟨fullText, usage⟩ := acc
    rw [streamChunks]
    cases deltaOf chunk with
    | none => exact ih _
    | some d => exact follows_bind (follows_emit_yields trivial (ih _))

private theorem tryStream_inScope {msgs : List ChatMessage} (h : InScope D (.completeStream msgs)) :
    AgentInScope D (fun _ => True) (tryStream msgs) := by
  have hanswer : AgentInScope D (fun _ => True) (streamAnswer msgs) := by
    refine follows_bind (follows_lift_yields _ ((follows_perform h).mono fun stream _ => ?_))
    refine follows_bind ((streamChunks_inScope _ _).mono fun acc _ => ?_)
    cases stream.failure <;> trivial
  refine follows_handle ?_ fun e => follows_bind (follows_emit_yields trivial trivial)
  rw [map_eq_pure_bind]
  exact follows_bind (hanswer.mono fun _ _ => trivial)

private theorem retrieveDocsNode_inScope (st : AgentState) :
    (retrieveDocsNode st).Follows (RepliesOfDocs D) (InScope D) fun st' =>
      ∃ docs : List RetrievedDoc, OfDocs D (docs.map (·.toCitation)) ∧
        st' = { st with retrieved := docs, citations := docs.map (·.toCitation) } :=
  follows_bind ((follows_perform trivial).mono fun docs hdocs => ⟨docs, hdocs, rfl⟩)

/-- The agent puts what it retrieves into the prompt, and yields it as citations. -/
private theorem runAgentStream_inScope (convId : Uuid) (summary : Option String) :
    AgentInScope D (fun _ => True) (runAgentStream message convId userId tenantId summary) := by
  refine follows_bind (follows_emit_yields trivial ?_)
  refine follows_bind (follows_lift_yields _ ((loadMemoryNode_follows trivial trivial).mono fun st hst => ?_))
  obtain ⟨history, facts, -, rfl⟩ := hst
  refine follows_bind (follows_emit_yields trivial ?_)
  refine follows_bind (follows_lift_yields _ ((retrieveDocsNode_inScope _).mono fun st hst => ?_))
  obtain ⟨docs, hdocs, rfl⟩ := hst
  have hcites : YieldsOfDocs D (.citations (docs.map (·.toCitation))) := hdocs
  refine follows_bind (follows_emit_yields hcites ?_)
  refine follows_bind ((tryStream_inScope ⟨message, history, summary, facts, docs, rfl, hdocs⟩).mono
    fun r _ => ?_)
  cases r with
  | none => trivial
  | some acc =>
    have hdone : YieldsOfDocs D (.done (String.join acc.1) (docs.map (·.toCitation)) acc.2) := hdocs
    exact follows_emit_yields hdone trivial

private theorem onAgentEvent_inScope (evt : AgentEvent) (st : GenState) (hevt : YieldsOfDocs D evt)
    (hst : OfDocs D st.citations) : (onAgentEvent evt st).Follows (RepliesOfDocs D) (InScope D) fun r =>
      ∀ st', r = .yield st' → OfDocs D st'.citations := by
  have hkeep : ∀ st₁ : GenState, OfDocs D st₁.citations → ∀ st', ForInStep.yield st₁ = .yield st' →
      OfDocs D st'.citations := by
    intro st₁ hst₁ st' h
    cases h
    exact hst₁
  cases evt with
  | toolCall name => exact ⟨trivial, fun _ _ => hkeep st hst, fun _ => trivial⟩
  | citations cs => exact ⟨hevt, fun _ _ => hkeep { st with citations := cs } hevt, fun _ => trivial⟩
  | token d =>
    exact ⟨trivial, fun _ _ => hkeep { st with fullAnswer := st.fullAnswer ++ d } hst, fun _ => trivial⟩
  | error d =>
    refine ⟨trivial, fun _ _ st' h => ?_, fun _ => trivial⟩
    cases h
  | done answer cs usage => exact hkeep ⟨answer, cs, usage⟩ hevt

private theorem persistAnswer_inScope (u : Uuid) {st : GenState} (hst : OfDocs D st.citations) :
    (persistAnswer s c u st).Only (InScope D) := by
  refine only_bind (only_perform hst) fun _ => only_bind (only_perform trivial) fun _ =>
    only_bind (only_perform trivial) fun _ => ?_
  refine only_bind (only_handle ?_ fun _ => only_done _) fun _ => only_perform hst
  exact only_bind (only_perform trivial) fun _ => only_done _

/-- If all that is retrieved is of `D`, so is what is shown to the model, sent and stored. -/
private theorem chatStream_inScope :
    (chatStream s c).Follows (RepliesOfDocs D) (InScope D) fun _ => True := by
  have hnone : OfDocs D [] := fun c hc => absurd hc List.not_mem_nil
  rw [chatStream_eq]
  refine ⟨trivial, fun conv _ => ?_, fun _ => trivial⟩
  cases conv with
  | none => trivial
  | some conv =>
    show (chatTurn s c conv.summary).Follows (RepliesOfDocs D) (InScope D) fun _ => True
    rw [chatTurn_eq]
    refine ⟨hnone, fun userMsg _ => ⟨trivial, fun _ _ => ?_, fun _ => trivial⟩, fun _ => trivial⟩
    refine follows_bind ((ensureBuffer_only s trivial trivial fun _ => trivial).follows.mono fun _ _ => ?_)
    refine ⟨trivial, fun _ _ => ⟨trivial, fun _ _ => ?_, fun _ => trivial⟩, fun _ => trivial⟩
    refine follows_handle (follows_bind ?_) fun e => ⟨trivial, fun _ _ => trivial, fun _ => trivial⟩
    refine (follows_forEach_yields onAgentEvent_inScope (runAgentStream_inScope _ _) hnone).mono
      fun r hr => ?_
    cases r with
    | done st => trivial
    | yield st => exact (persistAnswer_inScope _ (hr st rfl)).follows

/-- All points of the user are of `D`. -/
private theorem narrowScope_of_points {convId : Uuid} {req : ChatRequest}
    (h : ∀ p ∈ Pts, ownPoint tenantId userId p = true → ∀ D, req.docIds = some D →
      p.docId ∈ D.map toString) : NarrowScope x s convId userId tenantId req Pts := by
  intro D hD rid agent w hretrieved
  have hreplies : ∀ (o : ApiOp) v a, True → (apiHandler rid agent o v).1 = .ok a → RepliesOfDocs D o a := by
    intro o v a _ ha
    cases o with
    | retrieveAndRerank =>
      intro cite hcite
      obtain ⟨d, hd, rfl⟩ := List.mem_map.mp hcite
      obtain ⟨p, hp, hown, hdoc⟩ := (hretrieved a ha).docId hd
      show d.docId ∈ D.map toString
      rw [hdoc]
      exact h p hp hown D hD
    | _ => trivial
  exact log_of_follows (fun _ _ _ _ => trivial) hreplies chatStream_inScope trivial

/-! ### A request that leaves its scope -/

/-- The chunk of a point, with the score 0. -/
def docOf (p : Point) : RetrievedDoc :=
  ⟨⟨p.docId, toString p.id, p.docTitle, p.headingPath, p.pageFrom, p.pageTo, 0⟩, p.text⟩

private theorem retrieved_docOf {p : Point} (hp : p ∈ Pts) (hown : ownPoint tenantId userId p = true)
    (hmax : 1 ≤ x.rerank.rerankMaxCandidates) : Retrieved x message tenantId userId Pts [docOf p] :=
  ⟨Unit, oneStored message p, (), [], _, oneStored_fromPoints hp, retrieves_point hown hmax,
    .cons ⟨rfl, rfl, rfl, rfl, ⟨rfl, rfl⟩, rfl⟩ .nil⟩

/-- The conversation of the request, with a message in its buffer. -/
def chatReady (convId userId : Uuid) : ApiWorld :=
  { ApiWorld.blank with
    conversations := [⟨convId, userId, none, 0⟩]
    buffers := fun _ => [⟨.user, "Xin chào"⟩] }

/-- The agent gets these documents, and no answer of the model. -/
def retrievedOnly (docs : List RetrievedDoc) : AgentReplies :=
  ⟨.ok [], .ok docs, .error (.other "APIConnectionError")⟩

/-- The run of the program makes the call. -/
def Makes {α : Type} (g : Handler ApiCalls ApiErr ApiWorld) (o : ApiOp) (p : Api α) (w : ApiWorld) :
    Prop := ∃ v, (o, v) ∈ p.log g w

private theorem makes_call {α : Type} {g : Handler ApiCalls ApiErr ApiWorld} {o o' : ApiOp}
    {k : Except ApiErr o'.Resp → Api α} {w : ApiWorld} (h : Makes g o (k (g o' w).1) (g o' w).2) :
    Makes g o (.call o' k) w :=
  h.imp fun _ hv => List.mem_cons_of_mem _ hv

private theorem makes_handle {α : Type} {g : Handler ApiCalls ApiErr ApiWorld} {o : ApiOp} {p : Api α}
    {c : ApiErr → Api α} {w : ApiWorld} (h : Makes g o p w) : Makes g o (p.handle c) w := by
  obtain ⟨v, hv⟩ := h
  refine ⟨v, ?_⟩
  rw [log_handle]
  exact List.mem_append_left _ hv

private theorem commit_buffers (rid : Nat) (agent : AgentReplies) (ref : SessionRef) (w : ApiWorld) :
    (apiHandler rid agent (.commit ref) w).2.buffers = w.buffers := by
  simp only [apiHandler, apiReply]
  split <;> rfl

/-- What is retrieved is sent to the client. -/
private theorem citations_sent (convId : Uuid) (docs : List RetrievedDoc) :
    Makes (apiHandler 0 (retrievedOnly docs)) (.send (.citations (docs.map (·.toCitation))))
      (answerRequest s convId userId tenantId ⟨message, some D⟩)
        ((chatReady convId userId).openSessions 0) := by
  have hfound : (apiHandler 0 (retrievedOnly docs) (.getConversation .request convId userId)
      ((chatReady convId userId).openSessions 0)).1 = .ok (some ⟨convId, userId, none, 0⟩) := by
    simp [apiHandler, apiReply, chatReady, ApiWorld.openSessions]
  unfold answerRequest
  rw [chatStream_eq]
  refine makes_call ?_
  rw [hfound]
  show Makes _ _ (chatTurn s _ none) _
  generalize hw : (apiHandler 0 (retrievedOnly docs) (.getConversation .request convId userId)
      ((chatReady convId userId).openSessions 0)).2 = w
  have hnew : (w.sessions 0 .request).newDocuments = [] := by rw [← hw]; rfl
  have hbuffers : w.buffers = fun _ => [⟨.user, "Xin chào"⟩] := by rw [← hw]; rfl
  rw [chatTurn_eq]
  refine makes_call (makes_call ?_)
  rw [commit_reply 0 _ _ hnew]
  generalize hv : (apiHandler 0 (retrievedOnly docs) (.commit .request) _).2 = v
  have hread : (apiHandler 0 (retrievedOnly docs) (.lrange (bufKey convId) 0 (-1)) v).1 =
      .ok [⟨.user, "Xin chào"⟩] := by
    have hsame : v.buffers = w.buffers := by
      rw [← hv, commit_buffers]
      rfl
    show Except.ok (Redis.lrange 0 (-1) (v.buffers _)) = _
    rw [hsame, hbuffers, Redis.lrange_all]
  refine makes_call ?_
  rw [hread]
  refine makes_call (makes_call ?_)
  show Makes _ _ (chatGen s _ none _) _
  rw [chatGen_eq]
  refine makes_handle (makes_call ?_)
  -- the buffer and the facts
  refine makes_call (makes_call ?_)
  -- the event of the tool call, the retrieval and its citations
  refine makes_call (makes_call ?_)
  exact ⟨_, List.mem_cons_self ..⟩

/-- A point of the user that is of another document leaves the scope. -/
private theorem not_narrowScope {convId : Uuid} {p : Point} (hp : p ∈ Pts)
    (hown : ownPoint tenantId userId p = true) (hmax : 1 ≤ x.rerank.rerankMaxCandidates)
    (hdoc : p.docId ∉ D.map toString) : ¬ NarrowScope x s convId userId tenantId ⟨message, some D⟩ Pts := by
  intro h
  obtain ⟨v, hv⟩ := @citations_sent s D message tenantId userId convId [docOf p]
  have hscope : OfDocs D ([docOf p].map (·.toCitation)) := by
    refine h D rfl 0 (retrievedOnly [docOf p]) (chatReady convId userId) ?_ _ hv
    intro docs hdocs
    obtain rfl := Except.ok.inj hdocs
    exact retrieved_docOf hp hown hmax
  exact hdoc (hscope _ (List.mem_singleton_self _))

end Kept

/-- A request with `doc_ids` keeps to the documents that it names, whatever the query, the rewrite and the
replies of the rerankers, exactly if all points that the vector store has for the user in the tenant are
of these documents. -/
theorem narrowScope_iff (x : RetrievalSetup) (s : BufferSettings) (convId userId tenantId : Uuid)
    (message : String) (D : List Uuid) (Pts : Set Point) (hmax : 1 ≤ x.rerank.rerankMaxCandidates) :
    NarrowScope x s convId userId tenantId ⟨message, some D⟩ Pts ↔
      ∀ p ∈ Pts, ownPoint tenantId userId p = true → p.docId ∈ D.map toString := by
  constructor
  · intro h p hp hown
    by_contra hdoc
    exact not_narrowScope hp hown hmax hdoc h
  · intro h
    refine narrowScope_of_points fun p hp hown D' hD' => ?_
    obtain rfl := Option.some.inj hD'
    exact h p hp hown

/-- The store has a point of document 7, which the request names. -/
theorem narrowScope_iff_probation :
    NarrowScope probationSetup ⟨20, 3600⟩ 4 1 2 ⟨probation, some [7]⟩ {probationPoint 11 1 "Nghỉ việc"} ↔
      ∀ p ∈ ({probationPoint 11 1 "Nghỉ việc"} : Set Point), ownPoint 2 1 p = true →
        p.docId ∈ [(7 : Uuid)].map toString :=
  narrowScope_iff probationSetup ⟨20, 3600⟩ 4 1 2 probation [7] _ (by decide)

/-- The request names document 5 and is answered from document 7. -/
theorem not_always_narrowScope :
    ¬ ∀ (x : RetrievalSetup) (s : BufferSettings) (convId userId tenantId : Uuid) (req : ChatRequest)
    (Pts : Set Point), NarrowScope x s convId userId tenantId req Pts := by
  intro h
  refine not_narrowScope (D := [5]) (p := probationPoint 11 1 "Nghỉ việc") (Set.mem_singleton _) ?_ ?_ ?_
    (h probationSetup ⟨20, 3600⟩ 4 1 2 ⟨probation, some [5]⟩ {probationPoint 11 1 "Nghỉ việc"})
  · decide +kernel
  · decide
  · decide +kernel

end LegalRag
