import Mathlib.Algebra.Order.Ring.Rat
import LegalRag.Ingestion.Calls

/-!
# The vector search

The hits of `vector_search` of `src/retrieval/search.py`, and the `must` conditions that it puts into its
query.
-/

namespace LegalRag

structure SearchHit where
  pointId : String
  score : ℚ
  docId : String
  docTitle : String
  chunkIndex : Int
  headingPath : Option String
  pageFrom : Option Nat
  pageTo : Option Nat
  text : String
  deriving DecidableEq, Repr

/-- A `FieldCondition` on a payload field. -/
inductive FieldCondition where
  | tenantId (value : String)
  | userId (value : String)
  | docId (any : List String)
  deriving DecidableEq, Repr

/-- Whether a point satisfies a condition. -/
def FieldCondition.holds (p : Point) : FieldCondition → Bool
  | .tenantId value => p.tenantId = value
  | .userId value => p.userId = value
  | .docId any => p.docId ∈ any

/-- `must`; an empty list of documents counts as none, as Python's `if doc_ids` has it. -/
def mustConditions (tenantId : Uuid) (userId : Option Uuid) (docIds : Option (List Uuid)) :
    List FieldCondition :=
  [.tenantId (toString tenantId)] ++
    (userId.map fun u => FieldCondition.userId (toString u)).toList ++
    ((docIds.filter (· ≠ [])).map fun ds => FieldCondition.docId (ds.map toString)).toList

/-- Whether a point passes `Filter(must=..)`. -/
def passes (must : List FieldCondition) (p : Point) : Bool := must.all (·.holds p)

theorem passes_user {tenantId userId : Uuid} {p : Point} :
    passes (mustConditions tenantId (some userId) none) p ↔
    p.tenantId = toString tenantId ∧ p.userId = toString userId := by
  simp [passes, mustConditions, FieldCondition.holds]

end LegalRag
