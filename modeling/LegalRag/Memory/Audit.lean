import LegalRag.Memory.Facts
import LegalRag.Calls.Effects
import Mathlib.Data.List.DropRight

/-!
# Which messages an extraction has seen

A fact names all messages of the user in the window as its sources, and the model is shown the first 8000
characters of the transcript of the window.  `audit_trail_iff` says when it has seen the sources, and when
it has seen the last message.
-/

namespace LegalRag

open Calls Prog

/-- The messages that the job reads. -/
def factWindow (convId : Uuid) (messages : List Message) : List Message := lastMessages convId 20 messages

/-! ### The job -/

/-- The model is shown the transcript of these messages, and a fact names those of the user as its
sources. -/
def FromWindow (s : LlmSettings) (msgs : List Message) : FactOp → Prop
  | .complete c => c = extractionCall s msgs
  | .addFact f => f.sourceMessageIds = sourceIdsOf msgs
  | _ => True

section Job

variable {parse : FactParsers} {s : LlmSettings} {msgs : List Message} {conv : JobConversation}

private theorem factScope_follows {α : Type} {body : FactProg α} {post : α → Prop}
    (h : body.Follows (fun _ _ => True) (FromWindow s msgs) post) :
    (factScope body).Follows (fun _ _ => True) (FromWindow s msgs) post := by
  refine follows_handle (follows_bind (h.mono fun a ha => ?_)) fun e => ?_
  · exact ⟨trivial, fun _ _ => ha, fun _ => trivial⟩
  · exact ⟨trivial, fun _ _ => trivial, fun _ => trivial⟩

private theorem saveFact_from (userId tenantId : Uuid) (key value : String) (confidence : PyFloat) :
    (saveFact userId tenantId key value confidence (sourceIdsOf msgs)).Only (FromWindow s msgs) := by
  refine only_bind (only_perform trivial) fun vectors => ?_
  split
  · refine only_bind (only_perform trivial) fun hits => ?_
    split
    · trivial
    · refine only_bind (only_perform trivial) fun pointId => only_bind ?_ fun _ => ?_
      · exact factScope_follows ⟨rfl, fun _ _ => trivial, fun _ => trivial⟩
      · exact only_bind (only_perform trivial) fun _ => trivial
  · trivial

private theorem saveAll_from (fs : List PyValue) :
    (saveAll parse conv (sourceIdsOf msgs) fs).Only (FromWindow s msgs) := by
  induction fs with
  | nil => trivial
  | cons f fs ih =>
    refine only_bind (only_done _) fun key => only_bind (only_done _) fun value =>
      only_bind (only_done _) fun conf => ?_
    split
    · exact ih
    · exact only_bind (saveFact_from ..) fun ok => only_bind ih fun saved => trivial

private theorem extractFrom_from : (extractFrom parse s (some (msgs, conv))).Only (FromWindow s msgs) := by
  refine only_bind (only_perform rfl) fun resp => ?_
  split
  · trivial
  · exact only_bind (only_done _) fun facts => saveAll_from facts

/-- The job reads the window first, and all that it does then is from this window. -/
private theorem extractFacts_from (convId : Uuid) : ∃ k, extractFacts parse s convId =
    .call (.recentMessages convId 20) k ∧ ∀ msgs, (k (.ok msgs)).Only (FromWindow s msgs) := by
  refine ⟨_, rfl, fun msgs => ?_⟩
  let ofWindow (found : Option (List Message × JobConversation)) : Prop :=
    ∀ ms conv, found = some (ms, conv) → ms = msgs
  refine follows_bind (Follows.mono (@factScope_follows s msgs _ _ ofWindow ?_) fun found hfound => ?_)
  · show Follows (I := FactCalls) (fun _ _ => True) (FromWindow s msgs) ofWindow
      (if msgs.isEmpty = true then _ else _)
    split
    · intro ms conv h
      cases h
    · refine follows_bind ((follows_perform trivial).mono fun found _ => ?_)
      cases found with
      | none =>
        intro ms conv h
        cases h
      | some c =>
        intro ms conv h
        cases h
        rfl
  cases found with
  | none => trivial
  | some p =>
    obtain rfl : p.1 = msgs := hfound p.1 p.2 rfl
    exact extractFrom_from

end Job

/-! ### The transcript -/

/-- What stands before the content of a message in the transcript. -/
def lead (earlier : List Message) (m : Message) : String :=
  (if earlier = [] then "" else transcript earlier ++ "\n") ++ ("[" ++ m.role.text ++ "] ")

private theorem transcript_append {a b : List Message} (ha : a ≠ []) (hb : b ≠ []) :
    transcript (a ++ b) = transcript a ++ "\n" ++ transcript b := by
  unfold transcript
  rw [List.map_append]
  exact String.intercalate_append_of_ne_nil (List.map_eq_nil_iff.not.mpr ha) (List.map_eq_nil_iff.not.mpr hb)

private theorem transcript_singleton (m : Message) :
    transcript [m] = "[" ++ m.role.text ++ "] " ++ m.content :=
  String.intercalate_singleton

private theorem transcript_concat (earlier : List Message) (m : Message) :
    transcript (earlier ++ [m]) = lead earlier m ++ m.content := by
  unfold lead
  by_cases h : earlier = []
  · rw [if_pos h, h, List.nil_append, transcript_singleton, String.empty_append]
  · rw [if_neg h, transcript_append h (List.cons_ne_nil m []), transcript_singleton]
    simp only [String.append_assoc]

/-- The transcript of the first messages is the first part of the transcript. -/
private theorem transcript_mono {a b : List Message} (h : a <+: b) :
    (transcript a).toList <+: (transcript b).toList := by
  obtain ⟨c, rfl⟩ := h
  by_cases ha : a = []
  · rw [ha]
    exact List.nil_prefix
  · by_cases hc : c = []
    · rw [hc, List.append_nil]
    · rw [transcript_append ha hc, String.append_assoc, String.toList_append]
      exact List.prefix_append _ _

private theorem transcript_length_le {a b : List Message} (h : a <+: b) :
    (transcript a).length ≤ (transcript b).length := by
  have hle := (transcript_mono h).length_le
  rwa [String.length_toList, String.length_toList] at hle

/-- The text has the full content of the message that comes after these. -/
def SeenAfter (text : List Char) (earlier : List Message) (m : Message) : Prop :=
  ∃ rest, text = (lead earlier m).toList ++ m.content.toList ++ rest

/-- A message is seen exactly if the transcript up to it is not too long. -/
private theorem seenAfter_iff {msgs earlier later : List Message} {m : Message}
    (h : msgs = earlier ++ m :: later) :
    SeenAfter (shownText msgs) earlier m ↔ (transcript (earlier ++ [m])).length ≤ 8000 := by
  have hprefix : earlier ++ [m] <+: msgs := ⟨later, by rw [h, List.append_assoc, List.singleton_append]⟩
  obtain ⟨rest, hrest⟩ := transcript_mono hprefix
  have hlead : (transcript (earlier ++ [m])).toList = (lead earlier m).toList ++ m.content.toList := by
    rw [transcript_concat, String.toList_append]
  unfold shownText SeenAfter
  rw [← hlead]
  constructor
  · rintro ⟨after, hafter⟩
    have hle := List.length_take_le 8000 (transcript msgs).toList
    rw [hafter, List.length_append, String.length_toList] at hle
    omega
  · intro hle
    refine ⟨rest.take (8000 - (transcript (earlier ++ [m])).length), ?_⟩
    rw [← hrest, List.take_append, String.length_toList,
      List.take_of_length_le (by rwa [String.length_toList])]

/-! ### Sources -/

/-- The messages up to the last one of the user. -/
def throughLastUser (msgs : List Message) : List Message := msgs.rdropWhile fun m => m.role ≠ .user

/-- The model has seen every message that a fact of this window names as a source. -/
def SourcesSeen (msgs : List Message) : Prop :=
  ∀ earlier m later, msgs = earlier ++ m :: later → m.role = .user → m.id ∈ sourceIdsOf msgs →
    SeenAfter (shownText msgs) earlier m

/-- The model has seen the last message of the window. -/
def NewestSeen (msgs : List Message) : Prop :=
  ∀ earlier m, msgs = earlier ++ [m] → SeenAfter (shownText msgs) earlier m

section Seen

variable {msgs : List Message}

private theorem mem_sourceIdsOf {m : Message} (hm : m ∈ msgs) (hrole : m.role = .user) :
    m.id ∈ sourceIdsOf msgs :=
  List.mem_map_of_mem (List.mem_filter.mpr ⟨hm, decide_eq_true hrole⟩)

/-- A message of the user is not after the last one. -/
private theorem prefix_throughLastUser {earlier later : List Message} {m : Message} (hrole : m.role = .user) :
    earlier ++ [m] <+: throughLastUser (earlier ++ m :: later) := by
  unfold throughLastUser
  induction later using List.reverseRecOn with
  | nil =>
    rw [List.rdropWhile_concat_neg _ _ _ (by simp [hrole])]
  | append_singleton later x ih =>
    have hsplit : earlier ++ m :: (later ++ [x]) = (earlier ++ m :: later) ++ [x] := by simp
    rw [hsplit]
    by_cases hx : x.role = .user
    · rw [List.rdropWhile_concat_neg _ _ _ (by simp [hx])]
      exact ⟨later ++ [x], by simp⟩
    · rw [List.rdropWhile_concat_pos _ _ _ (by simp [hx])]
      exact ih

/-- The messages up to the last one of the user end with it. -/
private theorem throughLastUser_cases (msgs : List Message) :
    throughLastUser msgs = [] ∨
    ∃ earlier m later, msgs = earlier ++ m :: later ∧ m.role = .user ∧
      throughLastUser msgs = earlier ++ [m] := by
  by_cases hnil : throughLastUser msgs = []
  · exact Or.inl hnil
  · obtain ⟨later, hlater⟩ := List.rdropWhile_prefix (fun m : Message => decide (m.role ≠ .user)) msgs
    have hlast : ¬ decide (((throughLastUser msgs).getLast hnil).role ≠ .user) = true :=
      List.rdropWhile_last_not (fun m : Message => decide (m.role ≠ .user)) msgs hnil
    have hconcat := List.dropLast_append_getLast hnil
    refine Or.inr ⟨_, _, later, ?_, by simpa using hlast, hconcat.symm⟩
    have hall : throughLastUser msgs ++ later = msgs := hlater
    rw [← List.singleton_append, ← List.append_assoc, hconcat]
    exact hall.symm

private theorem sourcesSeen_iff : SourcesSeen msgs ↔ (transcript (throughLastUser msgs)).length ≤ 8000 := by
  constructor
  · intro h
    obtain hnil | ⟨earlier, m, later, hmsgs, hrole, hthrough⟩ := throughLastUser_cases msgs
    · rw [hnil]
      exact Nat.zero_le _
    · have hm : m ∈ msgs := hmsgs ▸ List.mem_append_right _ (List.mem_cons_self ..)
      rw [hthrough]
      exact (seenAfter_iff hmsgs).mp (h earlier m later hmsgs hrole (mem_sourceIdsOf hm hrole))
  · intro hle earlier m later hmsgs hrole _
    have hprefix : earlier ++ [m] <+: throughLastUser msgs := hmsgs ▸ prefix_throughLastUser hrole
    exact (seenAfter_iff hmsgs).mpr ((transcript_length_le hprefix).trans hle)

private theorem newestSeen_iff : NewestSeen msgs ↔ (transcript msgs).length ≤ 8000 := by
  constructor
  · intro h
    obtain rfl | ⟨earlier, m, rfl⟩ := List.eq_nil_or_concat' msgs
    · exact Nat.zero_le _
    · exact (seenAfter_iff rfl).mp (h earlier m rfl)
  · rintro hle earlier m rfl
    exact (seenAfter_iff rfl).mpr hle

end Seen

/-- The job shows the model the window and names its messages of the user as sources; it has shown these
in full exactly if the transcript up to the last of them is at most 8000 characters long, and the last
message of all exactly if the whole one is. -/
theorem audit_trail_iff (parse : FactParsers) (s : LlmSettings) (convId : Uuid) (messages : List Message) :
    (∃ k, extractFacts parse s convId = .call (.recentMessages convId 20) k ∧
      (k (.ok (factWindow convId messages))).Only (FromWindow s (factWindow convId messages))) ∧
    (SourcesSeen (factWindow convId messages) ↔
      (transcript (throughLastUser (factWindow convId messages))).length ≤ 8000) ∧
    (NewestSeen (factWindow convId messages) ↔ (transcript (factWindow convId messages)).length ≤ 8000) := by
  obtain ⟨k, hk, hfrom⟩ := @extractFacts_from parse s convId
  exact ⟨⟨k, hk, hfrom _⟩, sourcesSeen_iff, newestSeen_iff⟩

/-- A question as long as a question may be. -/
def longQuestion : Message where
  conversationId := 1
  role := .user
  content := .ofList (List.replicate 8000 'x')
  citations := []
  tokensIn := none
  tokensOut := none
  id := 2
  createdAt := 0

/-- The answer to it. -/
def longQuestionAnswer : Message where
  conversationId := 1
  role := .assistant
  content := "Vâng."
  citations := []
  tokensIn := some 2010
  tokensOut := some 3
  id := 3
  createdAt := 1

private theorem transcript_longQuestion :
    (transcript [longQuestion]).toList = "[user] ".toList ++ List.replicate 8000 'x' := by
  rw [transcript_singleton, String.toList_append]
  refine congrArg₂ (· ++ ·) rfl ?_
  unfold longQuestion
  exact String.toList_ofList

/-- The model sees the question without its last characters, and nothing of the answer, but the question
is the source of the facts. -/
theorem long_question_unseen :
    factWindow 1 [longQuestion, longQuestionAnswer] = [longQuestion, longQuestionAnswer] ∧
    longQuestion.id ∈ sourceIdsOf [longQuestion, longQuestionAnswer] ∧
    ¬ longQuestion.content.toList <:+: shownText [longQuestion, longQuestionAnswer] ∧
    ¬ SourcesSeen (factWindow 1 [longQuestion, longQuestionAnswer]) ∧
    ¬ NewestSeen (factWindow 1 [longQuestion, longQuestionAnswer]) := by
  have hwindow : factWindow 1 [longQuestion, longQuestionAnswer] = [longQuestion, longQuestionAnswer] := rfl
  have hcontent : longQuestion.content.toList = List.replicate 8000 'x' := String.toList_ofList
  have hlen : (transcript [longQuestion]).length = 8007 := by
    rw [← String.length_toList, transcript_longQuestion, List.length_append, List.length_replicate]
    rfl
  have hthrough : throughLastUser [longQuestion, longQuestionAnswer] = [longQuestion] := by
    have hpos : throughLastUser ([longQuestion] ++ [longQuestionAnswer]) = throughLastUser [longQuestion] :=
      List.rdropWhile_concat_pos _ _ _ rfl
    refine hpos.trans ?_
    unfold throughLastUser
    rw [List.rdropWhile_singleton]
    rfl
  have hfirst : [longQuestion] <+: [longQuestion, longQuestionAnswer] := ⟨[longQuestionAnswer], rfl⟩
  refine ⟨hwindow, List.mem_cons_self .., ?_, ?_, ?_⟩
  · intro h
    -- the text is no longer than the question, and begins with another character
    have hle : (shownText [longQuestion, longQuestionAnswer]).length ≤ longQuestion.content.toList.length := by
      rw [hcontent, List.length_replicate]
      exact List.length_take_le 8000 _
    have heq := h.eq_of_length_le hle
    obtain ⟨rest, hrest⟩ := transcript_mono hfirst
    have hmem : '[' ∈ longQuestion.content.toList := by
      rw [heq, shownText, ← hrest, transcript_longQuestion]
      exact List.mem_cons_self ..
    rw [hcontent] at hmem
    exact absurd (List.eq_of_mem_replicate hmem) (by decide)
  · rw [hwindow, sourcesSeen_iff, hthrough, hlen]
    decide
  · rw [hwindow, newestSeen_iff]
    have hle := transcript_length_le hfirst
    omega

end LegalRag
