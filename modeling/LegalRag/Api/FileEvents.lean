import LegalRag.Ingestion.Announcing

/-!
# The events of a file

`file_events` of `src/api/routes/files.py`, step by step: the row is read, its channel is subscribed to,
the status that was read is yielded, and then the messages that Redis sends, up to the first one with a
final status.  Redis sends a message to the streams that are subscribed when it is published, and keeps
none.

`step_endings` says what a step does to the final statuses that are on their way to the client
(`endings`).
-/

namespace LegalRag

/-- `{"event": .., "data": ..}`: what `_publish` sends, and what the stream yields. -/
structure StatusMessage where
  event : String
  data : StatusEvent
  deriving DecidableEq, Repr

/-- An item of `pubsub.listen()`: the confirmation of a SUBSCRIBE, or a message; `none` if its data is not
JSON. -/
inductive PubSubItem where
  | subscribed (channel : String)
  | message (payload : Option StatusMessage)
  deriving DecidableEq, Repr

/-- Where the request stands. -/
inductive StreamPhase where
  | requested
  | notFound
  /-- The row is read; the generator begins with its SUBSCRIBE. -/
  | opened (status : DocStatus)
  /-- The status that was read is yielded next. -/
  | subscribed (status : DocStatus)
  | listening
  /-- The loop is left, and the `finally` block comes next. -/
  | leaving
  | closed
  deriving DecidableEq, Repr

def StreamPhase.isSubscribed : StreamPhase → Bool
  | .subscribed _ | .listening | .leaving => true
  | _ => false

/-- The loop has been left. -/
def StreamPhase.isOver : StreamPhase → Bool
  | .leaving | .closed => true
  | _ => false

/-- The request, what Redis has sent to it and it has not taken yet, and what it has yielded. -/
structure FileStream where
  phase : StreamPhase
  inbox : List PubSubItem
  sent : List StatusMessage
  deriving DecidableEq, Repr

namespace FileStream

def start : FileStream := ⟨.requested, [], []⟩

/-- A message is published. -/
def deliver (docId : Uuid) (channel : String) (e : StatusEvent) (g : FileStream) : FileStream :=
  if g.phase.isSubscribed ∧ channel = eventsChannel docId then
    { g with inbox := g.inbox ++ [.message (some ⟨"status", e⟩)] }
  else g

/-- The body of the loop, for one item. -/
def receive (g : FileStream) : PubSubItem → FileStream
  | .message (some m) =>
    { g with sent := g.sent ++ [m], phase := if m.data.status.isFinal then .leaving else .listening }
  -- not a message, or not JSON
  | _ => g

/-- The next step of the request; `none` if it is over, or waits for a message. -/
def step (docId userId : Uuid) (rows : List Document) (g : FileStream) : Option FileStream :=
  match g.phase with
  | .requested =>
    match getDocument docId userId rows with
    | none => some { g with phase := .notFound }
    | some d => some { g with phase := .opened d.status }
  | .opened status =>
    some { g with phase := .subscribed status, inbox := [.subscribed (eventsChannel docId)] }
  | .subscribed status =>
    some { g with phase := .listening, sent := g.sent ++ [⟨"status", ⟨status, none, none⟩⟩] }
  | .listening =>
    match g.inbox with
    | [] => none
    | item :: items => some ({ g with inbox := items }.receive item)
  -- `unsubscribe` and `aclose`
  | .leaving => some { g with phase := .closed, inbox := [] }
  | .notFound | .closed => none

/-- All that was sent has been taken, and the stream has no step left but to wait for a message. -/
def Quiescent (g : FileStream) : Prop := g.inbox = [] ∧ (g.phase = .listening ∨ g.phase = .closed)

instance : DecidablePred Quiescent := fun _ => inferInstanceAs (Decidable (_ ∧ (_ ∨ _)))

/-- The client has been told the status, and the stream has ended. -/
def Told (st : DocStatus) (g : FileStream) : Prop := g.phase = .closed ∧ ∃ m ∈ g.sent, m.data.status = st

/-! ### What ends the stream -/

end FileStream

/-- The final status of a message. -/
def PubSubItem.final : PubSubItem → Option DocStatus
  | .message (some m) => if m.data.status.isFinal then some m.data.status else none
  | _ => none

namespace FileStream

/-- The status on which the loop was left. -/
def endedOn (g : FileStream) : Option DocStatus :=
  if g.phase.isOver then g.sent.getLast?.map (·.data.status) else none

/-- The final statuses in the inbox, and the one on which the loop was left. -/
def endings (g : FileStream) : List DocStatus := g.inbox.filterMap PubSubItem.final ++ g.endedOn.toList

/-- A stream that is over has told its last status, and one that is not subscribed gets nothing. -/
structure WellFormed (g : FileStream) : Prop where
  told : g.phase.isOver → g.endedOn.isSome
  unsubscribed : g.phase.isSubscribed = false → g.inbox = []

variable {docId userId : Uuid} {rows : List Document} {g g' : FileStream} {st : DocStatus}

/-- Before the loop is left. -/
private theorem wellFormed_of_open (hover : g.phase.isOver = false)
    (hinbox : g.phase.isSubscribed = false → g.inbox = []) : g.WellFormed where
  told h := by
    rw [hover] at h
    cases h
  unsubscribed := hinbox

theorem wellFormed_start : start.WellFormed := wellFormed_of_open rfl fun _ => rfl

/-- The status on which the stream ended is one of those it has yielded. -/
theorem endedOn_told (h : g.endedOn = some st) : ∃ m ∈ g.sent, m.data.status = st := by
  unfold endedOn at h
  split at h
  · obtain ⟨m, hm, rfl⟩ := Option.map_eq_some_iff.mp h
    exact ⟨m, List.mem_of_getLast? hm, rfl⟩
  · cases h

theorem mem_endings : st ∈ g.endings ↔ (∃ i ∈ g.inbox, i.final = some st) ∨ g.endedOn = some st := by
  simp [endings]

@[simp] theorem deliver_phase (channel : String) (e : StatusEvent) :
    (g.deliver docId channel e).phase = g.phase := by
  unfold deliver
  split <;> rfl

@[simp] theorem deliver_sent (channel : String) (e : StatusEvent) :
    (g.deliver docId channel e).sent = g.sent := by
  unfold deliver
  split <;> rfl

@[simp] theorem deliver_endedOn (channel : String) (e : StatusEvent) :
    (g.deliver docId channel e).endedOn = g.endedOn := by
  simp [endedOn]

theorem WellFormed.deliver (h : g.WellFormed) (channel : String) (e : StatusEvent) :
    (g.deliver docId channel e).WellFormed where
  told := by simpa using h.told
  unsubscribed := by
    intro hphase
    rw [deliver_phase] at hphase
    rw [FileStream.deliver, if_neg (by simp [hphase])]
    exact h.unsubscribed hphase

/-- What a published message adds. -/
theorem mem_endings_deliver (channel : String) (e : StatusEvent) :
    st ∈ (g.deliver docId channel e).endings ↔
    st ∈ g.endings ∨ g.phase.isSubscribed ∧ channel = eventsChannel docId ∧ e.status.isFinal ∧
    e.status = st := by
  rw [mem_endings, mem_endings, deliver_endedOn]
  by_cases hsub : g.phase.isSubscribed ∧ channel = eventsChannel docId
  · rw [deliver, if_pos hsub]
    simp only [List.mem_append, List.mem_singleton, or_and_right, exists_or, exists_eq_left, PubSubItem.final,
      Option.ite_none_right_eq_some, Option.some.injEq, hsub.1, hsub.2, true_and]
    rw [or_right_comm]
  · rw [deliver, if_neg hsub]
    constructor
    · exact Or.inl
    · intro h
      rcases h with h | ⟨hphase, hchannel, -⟩
      · exact h
      · exact absurd ⟨hphase, hchannel⟩ hsub

/-- What one item of the inbox does. -/
private theorem receive_cases (i : PubSubItem) (hphase : g.phase = .listening) :
    (∃ m, i.final = some m.data.status ∧
      g.receive i = { g with phase := .leaving, sent := g.sent ++ [m] }) ∨
      i.final = none ∧ (g.receive i).phase = .listening ∧ (g.receive i).inbox = g.inbox := by
  rcases i with channel | payload
  · exact Or.inr ⟨rfl, hphase, rfl⟩
  · cases payload with
    | none => exact Or.inr ⟨rfl, hphase, rfl⟩
    | some m =>
      cases hfinal : m.data.status.isFinal with
      | true => exact Or.inl ⟨m, by simp [PubSubItem.final, hfinal], by simp [receive, hfinal]⟩
      | false => exact Or.inr ⟨by simp [PubSubItem.final, hfinal], by simp [receive, hfinal], rfl⟩

/-- A step of the stream keeps it well formed; no other status comes on its way, and if it is the only
one, none is lost. -/
theorem step_endings (hg : g.WellFormed) (h : g.step docId userId rows = some g') :
    g'.WellFormed ∧
    (∀ st ∈ g'.endings, st ∈ g.endings) ∧ ∀ st ∈ g.endings, (∀ st' ∈ g.endings, st' = st) →
    st ∈ g'.endings := by
  obtain ⟨phase, inbox, sent⟩ := g
  cases phase with
  | requested =>
    have hinbox : inbox = [] := hg.unsubscribed rfl
    subst hinbox
    simp only [step] at h
    split at h <;> obtain rfl := Option.some.inj h <;>
      exact ⟨wellFormed_of_open rfl fun _ => rfl, fun st hst => hst, fun st hst _ => hst⟩
  | opened status =>
    have hinbox : inbox = [] := hg.unsubscribed rfl
    subst hinbox
    obtain rfl := Option.some.inj h
    refine ⟨wellFormed_of_open rfl fun hs => ?_, fun st hst => hst, fun st hst _ => hst⟩
    cases hs
  | subscribed status =>
    obtain rfl := Option.some.inj h
    refine ⟨wellFormed_of_open rfl fun hs => ?_, fun st hst => hst, fun st hst _ => hst⟩
    cases hs
  | listening =>
    cases inbox with
    | nil => cases h
    | cons i items =>
      obtain rfl := Option.some.inj h
      rcases @receive_cases ⟨.listening, items, sent⟩ i rfl with ⟨m, hfinal, hr⟩ | ⟨hfinal, hphase, hinbox⟩
      · -- the loop is left on the status of this item
        rw [hr]
        have hended : endedOn ⟨.leaving, items, sent ++ [m]⟩ = some m.data.status :=
          by simp [endedOn, StreamPhase.isOver]
        have hsame : ∀ st, st ∈ endings ⟨.leaving, items, sent ++ [m]⟩ ↔
            st ∈ endings ⟨.listening, i :: items, sent⟩ := by
          intro st
          rw [mem_endings, mem_endings, hended]
          simp only [List.mem_cons, or_and_right, exists_or, exists_eq_left, hfinal]
          simp [endedOn, StreamPhase.isOver, or_comm]
        refine ⟨⟨fun _ => ?_, fun hs => ?_⟩, fun st hst => (hsame st).mp hst,
          fun st hst _ => (hsame st).mpr hst⟩
        · rw [hended]
          rfl
        · cases hs
      · have hsame : ∀ st, st ∈ endings (receive ⟨.listening, items, sent⟩ i) ↔
            st ∈ endings ⟨.listening, i :: items, sent⟩ := by
          intro st
          rw [mem_endings, mem_endings, hinbox]
          simp [endedOn, hphase, StreamPhase.isOver, hfinal]
        refine ⟨wellFormed_of_open ?_ fun hs => ?_, fun st hst => (hsame st).mp hst,
          fun st hst _ => (hsame st).mpr hst⟩
        · rw [hphase]
          rfl
        · rw [hphase] at hs
          cases hs
  | leaving =>
    obtain rfl := Option.some.inj h
    have hended : endedOn ⟨.closed, [], sent⟩ = endedOn ⟨.leaving, inbox, sent⟩ := rfl
    have htold := hg.told rfl
    refine ⟨⟨fun _ => hended ▸ htold, fun _ => rfl⟩, ?_, ?_⟩
    · intro st hst
      rw [mem_endings, hended] at hst
      rcases hst with ⟨i, hi, -⟩ | hst
      · cases hi
      · exact mem_endings.mpr (Or.inr hst)
    · intro st hst honly
      obtain ⟨last, hlast⟩ := Option.isSome_iff_exists.mp htold
      obtain rfl := honly last (mem_endings.mpr (Or.inr hlast))
      exact mem_endings.mpr (Or.inr (hended.trans hlast))
  | notFound => cases h
  | closed => cases h

/-- A stream becomes subscribed after it has read the row. -/
theorem opened_of_step (h : g.step docId userId rows = some g')
    (hbefore : ¬ (g.phase.isSubscribed ∨ g.phase.isOver))
    (hafter : g'.phase.isSubscribed ∨ g'.phase.isOver) : ∃ read, g.phase = .opened read := by
  obtain ⟨phase, inbox, sent⟩ := g
  cases phase with
  | requested =>
    simp only [step] at h
    split at h <;> obtain rfl := Option.some.inj h <;> rcases hafter with hafter | hafter <;> cases hafter
  | opened read => exact ⟨read, rfl⟩
  | subscribed status => exact absurd (Or.inl rfl) hbefore
  | listening => exact absurd (Or.inl rfl) hbefore
  | leaving => exact absurd (Or.inl rfl) hbefore
  | notFound => cases h
  | closed => cases h

end FileStream

end LegalRag
