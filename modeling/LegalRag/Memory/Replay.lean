import LegalRag.Memory.Views

/-!
# Warming up is replaying

The two ways to fill the buffer of a conversation: `warmup_from_db` slices the messages once and writes
the slice, `append_message` pushes them one by one and has Redis trim the list after every push.

* `buffer_appendEach`: appends to a buffer that holds the last messages of a list leave the last messages
of the longer list;
* `warmup_eq_replay`: a warm-up leaves what appends to an empty key leave, whatever the key held before,
and appending more messages keeps the two equal.
-/

namespace LegalRag

open Calls Redis

/-- `append_message` of every message, one after the other. -/
def appendEach (s : BufferSettings) (convId : Uuid) : List ChatMessage → Api Unit
  | [] => pure ()
  | m :: ms => do
    appendMessage s convId m.role m.content
    appendEach s convId ms

variable (s : BufferSettings) (convId : Uuid) (rid : Nat) (agent : AgentReplies)

/-- The buffer after a program. -/
def bufferAfter (p : Api Unit) (w : ApiWorld) : List ChatMessage :=
  bufferOf convId (p.exec (apiHandler rid agent) w).2

variable {convId rid agent}

theorem bufferOf_eq (w : ApiWorld) : bufferOf convId w = w.buffers (bufKey convId) := lrange_all _

private theorem bufferAfter_bind (p q : Api Unit) (w : ApiWorld)
    (hp : (p.exec (apiHandler rid agent) w).1 = .ok ()) :
    bufferAfter convId rid agent (do p; q) w =
      bufferAfter convId rid agent q (p.exec (apiHandler rid agent) w).2 := by
  simp only [bufferAfter]
  rw [Prog.exec_bind, hp]
  rfl

/-! ### One append -/

private theorem appendMessage_ok (m : ChatMessage) (w : ApiWorld) :
    ((appendMessage s convId m.role m.content).exec (apiHandler rid agent) w).1 = .ok () := rfl

private theorem buffer_appendMessage (m : ChatMessage) (w : ApiWorld) :
    bufferAfter convId rid agent (appendMessage s convId m.role m.content) w =
      lastUpTo s.shortTermBufferSize (bufferOf convId w ++ [m]) := by
  have hcmds : bufferAfter convId rid agent (appendMessage s convId m.role m.content) w =
      (appendCmds s convId m).foldl BufferCmd.exec w.buffers (bufKey convId) := bufferOf_eq _
  rw [hcmds, bufferOf_eq, ← ltrim_neg]
  simp [appendCmds, BufferCmd.exec]

/-! ### Many appends -/

theorem buffer_appendEach (l ms : List ChatMessage) (w : ApiWorld)
    (hw : bufferOf convId w = lastUpTo s.shortTermBufferSize l) :
    bufferAfter convId rid agent (appendEach s convId ms) w = lastUpTo s.shortTermBufferSize (l ++ ms) := by
  induction ms generalizing l w with
  | nil => simpa [bufferAfter, appendEach] using hw
  | cons m ms ih =>
    have hone := @buffer_appendMessage s convId rid agent m w
    rw [hw, lastUpTo_append_lastUpTo] at hone
    rw [appendEach, bufferAfter_bind _ _ _ (appendMessage_ok s m w), ih (l ++ [m]) _ hone,
      List.append_assoc, List.singleton_append]

private theorem appendEach_ok (ms : List ChatMessage) (w : ApiWorld) :
    ((appendEach s convId ms).exec (apiHandler rid agent) w).1 = .ok () := by
  induction ms generalizing w with
  | nil => rfl
  | cons m ms ih =>
    rw [appendEach, Prog.exec_bind, appendMessage_ok]
    exact ih _

/-! ### The warm-up -/

private theorem warmup_ok (ms : List ChatMessage) (w : ApiWorld) :
    ((warmupFromDb s convId ms).exec (apiHandler rid agent) w).1 = .ok () := by
  unfold warmupFromDb
  split <;> rfl

private theorem buffer_warmup {ms : List ChatMessage} (hms : ms ≠ []) (w : ApiWorld) :
    bufferAfter convId rid agent (warmupFromDb s convId ms) w = lastUpTo s.shortTermBufferSize ms := by
  have hnil : ¬ ms.isEmpty = true := by simpa using hms
  have hcmds : bufferAfter convId rid agent (api (.pipeline (warmupCmds s convId ms))) w =
      (warmupCmds s convId ms).foldl BufferCmd.exec w.buffers (bufKey convId) := bufferOf_eq _
  rw [warmupFromDb, if_neg hnil, hcmds, warmupCmds]
  -- the key is deleted first, so what it held before does not matter
  simp [BufferCmd.exec, sliceFrom_neg, foldl_rpush]

/-- A warm-up with messages leaves what appends of all of them to an empty key leave, and so it stays
while more messages are appended; for a positive size these are the last messages, as many as the size
says if there are that many. -/
theorem warmup_eq_replay {h : List ChatMessage} (hh : h ≠ []) (w w₀ : ApiWorld)
    (hw₀ : bufferOf convId w₀ = []) :
    bufferAfter convId rid agent (warmupFromDb s convId h) w =
      bufferAfter convId rid agent (appendEach s convId h) w₀ ∧
    (1 ≤ s.shortTermBufferSize →
      bufferAfter convId rid agent (warmupFromDb s convId h) w =
        h.drop (h.length - min s.shortTermBufferSize h.length)) ∧
    ∀ more, bufferAfter convId rid agent (do warmupFromDb s convId h; appendEach s convId more) w =
      bufferAfter convId rid agent (do appendEach s convId h; appendEach s convId more) w₀ := by
  have hempty : bufferOf convId w₀ = lastUpTo s.shortTermBufferSize [] := by
    rw [hw₀]
    simp [lastUpTo]
  have hwarm := @buffer_warmup s convId rid agent _ hh w
  have hreplay := @buffer_appendEach s convId rid agent [] h w₀ hempty
  rw [List.nil_append] at hreplay
  refine ⟨hwarm.trans hreplay.symm, ?_, ?_⟩
  · intro hn
    rw [hwarm, lastUpTo_eq_rtake hn, List.rtake]
    congr 1
    omega
  · intro more
    rw [bufferAfter_bind _ _ _ (warmup_ok s h w), bufferAfter_bind _ _ _ (appendEach_ok s h w₀),
      buffer_appendEach s h more _ hwarm, buffer_appendEach s h more _ hreplay]

/-- Three messages in a buffer of two. -/
theorem warmup_eq_replay_three :
    let s : BufferSettings := ⟨2, 60⟩
    let h : List ChatMessage := [⟨.user, "a"⟩, ⟨.assistant, "b"⟩, ⟨.user, "c"⟩]
    bufferAfter 1 0 AgentReplies.none (warmupFromDb s 1 h) ApiWorld.blank =
      bufferAfter 1 0 AgentReplies.none (appendEach s 1 h) ApiWorld.blank :=
  (warmup_eq_replay ⟨2, 60⟩ (List.cons_ne_nil _ _) ApiWorld.blank ApiWorld.blank rfl).1

end LegalRag
