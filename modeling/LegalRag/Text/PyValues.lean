import Mathlib.Algebra.Order.Ring.Rat

/-!
# What `json.loads` returns

The values of Python that a JSON text stands for, and what the code does with them: `bool(v)`, `v.get(k)`,
`v[k]`, a loop over `v`, `int(v)` and `float(v)`.  Each of these may raise, and `except` clauses go by the
kind of an exception.  How a text is read is left open (`PyText`).
-/

namespace LegalRag

/-- A finite float, an infinity, or NaN. -/
inductive PyFloat where
  | finite (q : ℚ)
  | infinite (negative : Bool)
  | nan
  deriving DecidableEq, Repr

/-- `a < b`; NaN is not comparable. -/
def PyFloat.lt : PyFloat → PyFloat → Bool
  | .finite a, .finite b => a < b
  | .finite _, .infinite negative => !negative
  | .infinite negative, .finite _ => negative
  | .infinite negative, .infinite negative' => negative && !negative'
  | .nan, _ | _, .nan => false

/-- A value that `json.loads` can return. -/
inductive PyValue where
  | none
  | bool (b : Bool)
  | int (n : Int)
  | float (x : PyFloat)
  | str (s : String)
  | list (xs : List PyValue)
  | dict (fields : List (String × PyValue))

/-- The classes of exceptions that `except` clauses tell apart; a `JSONDecodeError` is a `ValueError`, but
no clause has both. -/
inductive PyErrKind where
  | keyError
  | valueError
  | typeError
  | attributeError
  | overflowError
  | jsonDecodeError
  | other
  deriving DecidableEq, Repr

structure PyErr where
  kind : PyErrKind
  text : String
  deriving DecidableEq, Repr

/-- How texts are read: by `json.loads`, `int` and `float`. -/
structure PyText where
  loads : String → Except PyErr PyValue
  int : String → Option Int
  float : String → Option PyFloat

namespace PyValue

/-- `bool(v)`. -/
def truthy : PyValue → Bool
  | .none => false
  | .bool b => b
  | .int n => n ≠ 0
  | .float x => x ≠ .finite 0
  | .str s => s ≠ ""
  | .list xs => !xs.isEmpty
  | .dict fields => !fields.isEmpty

/-- `v[k]` of a `dict`. -/
def field? (k : String) (fields : List (String × PyValue)) : Option PyValue :=
  (fields.find? fun f => f.1 = k).map Prod.snd

/-- `v.get(k)`, where an absent or false value counts as none. -/
def getTruthy (k : String) : PyValue → Except PyErr (Option PyValue)
  | .dict fields => .ok ((field? k fields).filter truthy)
  | _ => .error ⟨.attributeError, "object has no attribute 'get'"⟩

/-- `v[k]`. -/
def item (k : String) : PyValue → Except PyErr PyValue
  | .dict fields =>
    match field? k fields with
    | some v => .ok v
    | .none => .error ⟨.keyError, "'" ++ k ++ "'"⟩
  | _ => .error ⟨.typeError, "indices must be integers"⟩

/-- What a `for` loop over the value runs through. -/
def iterate : PyValue → Except PyErr (List PyValue)
  | .list xs => .ok xs
  | .dict fields => .ok (fields.map fun f => .str f.1)
  | .str s => .ok (s.toList.map fun c => .str (String.ofList [c]))
  | _ => .error ⟨.typeError, "object is not iterable"⟩

/-- `int(v)`. -/
def toInt (text : PyText) : PyValue → Except PyErr Int
  | .bool b => .ok (if b then 1 else 0)
  | .int n => .ok n
  | .float (.finite q) => .ok (q.num.tdiv q.den)
  | .float (.infinite _) => .error ⟨.overflowError, "cannot convert float infinity to integer"⟩
  | .float .nan => .error ⟨.valueError, "cannot convert float NaN to integer"⟩
  | .str s =>
    match text.int s with
    | some n => .ok n
    | .none => .error ⟨.valueError, "invalid literal for int() with base 10"⟩
  | .none | .list _ | .dict _ => .error ⟨.typeError, "int() argument must be a string or a real number"⟩

/-- The multiple of `2 ^ k` next to `n`; of two, the even one. -/
def roundTo (k n : Nat) : Nat :=
  let q := n / 2 ^ k
  let r := n % 2 ^ k
  (if 2 ^ k < 2 * r ∨ 2 * r = 2 ^ k ∧ q % 2 = 1 then q + 1 else q) * 2 ^ k

/-- A natural number with 53 significant bits, unless it is too large for a float. -/
@[irreducible] def floatOfNat (n : Nat) : Option Nat :=
  let m := roundTo (Nat.log2 n + 1 - 53) n
  if m < 2 ^ 1024 then some m else Option.none

/-- An integer as a float. -/
def floatOfInt (n : Int) : Option ℚ := (floatOfNat n.natAbs).map fun m => if n < 0 then -(m : ℚ) else m

/-- `float(v)`. -/
def toFloat (text : PyText) : PyValue → Except PyErr PyFloat
  | .bool b => .ok (.finite (if b then 1 else 0))
  | .int n =>
    match floatOfInt n with
    | some q => .ok (.finite q)
    | .none => .error ⟨.overflowError, "int too large to convert to float"⟩
  | .float x => .ok x
  | .str s =>
    match text.float s with
    | some x => .ok x
    | .none => .error ⟨.valueError, "could not convert string to float"⟩
  | .none | .list _ | .dict _ => .error ⟨.typeError, "float() argument must be a string or a real number"⟩

theorem toFloat_int (text : PyText) (n : Int) :
    (int n).toFloat text = match floatOfInt n with
      | some q => .ok (.finite q)
      | .none => .error ⟨.overflowError, "int too large to convert to float"⟩ := by
  rw [toFloat]

theorem item_dict (k : String) (fields : List (String × PyValue)) :
    (dict fields).item k = match field? k fields with
    | some v => .ok v
    | .none => .error ⟨.keyError, "'" ++ k ++ "'"⟩ := rfl

end PyValue

end LegalRag
