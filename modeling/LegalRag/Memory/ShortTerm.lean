import LegalRag.Api.Calls
import LegalRag.Redis.Lists

/-!
# The short-term buffer

`src/memory/short_term.py`: the last messages of a conversation as a Redis list, one entry a message.  An
append pushes, trims the list to the last `shortTermBufferSize` entries and renews its lifetime, in one
pipeline; the warm-up replaces the list by messages read from Postgres.
-/

namespace LegalRag

open Calls Redis

/-- The settings of the buffer. -/
structure BufferSettings where
  shortTermBufferSize : Nat
  shortTermBufferTtlS : Nat
  deriving DecidableEq, Repr

/-- `conv:buf:{conv_id}`. -/
def bufKey (convId : Uuid) : String := "conv:buf:" ++ toString convId

/-- The pipeline of `append_message`. -/
def appendCmds (s : BufferSettings) (convId : Uuid) (m : ChatMessage) : List BufferCmd :=
  [.rpush (bufKey convId) m, .ltrim (bufKey convId) (-s.shortTermBufferSize) (-1),
    .expire (bufKey convId) s.shortTermBufferTtlS]

/-- `append_message`. -/
def appendMessage (s : BufferSettings) (convId : Uuid) (role : Role) (content : String) : Api Unit :=
  api (.pipeline (appendCmds s convId ⟨role, content⟩))

/-- `get_buffer`. -/
def getBuffer (convId : Uuid) : Api (List ChatMessage) := api (.lrange (bufKey convId) 0 (-1))

/-- `reset_buffer`. -/
def resetBuffer (convId : Uuid) : Api Unit := api (.pipeline [.delete (bufKey convId)])

/-- The pipeline of `warmup_from_db`. -/
def warmupCmds (s : BufferSettings) (convId : Uuid) (messages : List ChatMessage) : List BufferCmd :=
  .delete (bufKey convId) ::
    ((sliceFrom (-s.shortTermBufferSize) messages).map (.rpush (bufKey convId)) ++
      [.expire (bufKey convId) s.shortTermBufferTtlS])

/-- `warmup_from_db`. -/
def warmupFromDb (s : BufferSettings) (convId : Uuid) (messages : List ChatMessage) : Api Unit :=
  if messages.isEmpty then pure () else api (.pipeline (warmupCmds s convId messages))

end LegalRag
