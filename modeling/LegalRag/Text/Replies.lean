import LegalRag.Text.PyValues

/-!
# A loop over a field of a reply

`json.loads(raw)`, then `obj.get(k) or []`, then a loop over it; only a `JSONDecodeError` is caught.  The
loop runs if the text is no JSON, or JSON of an object in which the field is absent, false, a list, a
string or an object (`looped_ok_iff`); of a string it gets the characters, and of an object the keys
(`looped_eq`).
-/

namespace LegalRag

/-- A finite number, as a float. -/
def PyValue.number : PyValue → Option ℚ
  | .int n => PyValue.floatOfInt n
  | .float (.finite q) => some q
  | _ => Option.none

section Loops

variable (parse : PyText) (k raw : String)

/-- What the loop runs through. -/
def looped : Except PyErr (List PyValue) :=
  match parse.loads raw with
  | .error e => if e.kind = .jsonDecodeError then .ok [] else .error e
  | .ok obj => do
    match ← obj.getTruthy k with
    | none => return []
    | some v => v.iterate

/-- The elements of the list under `k`, if the text is JSON of an object that has one. -/
def listUnder : List PyValue :=
  match parse.loads raw with
  | .ok (.dict fields) =>
    match PyValue.field? k fields with
    | some (.list xs) => xs
    | _ => []
  | _ => []

/-- The characters of a string under `k`, or the keys of an object. -/
def stringsUnder : List String :=
  match parse.loads raw with
  | .ok (.dict fields) =>
    match PyValue.field? k fields with
    | some (.str s) => s.toList.map fun c => String.ofList [c]
    | some (.dict inner) => inner.map Prod.fst
    | _ => []
  | _ => []

def PyValue.isIterable : PyValue → Bool
  | .list _ | .dict _ | .str _ => true
  | _ => false

/-- The loop runs. -/
structure Loopable : Prop where
  json : ∀ e, parse.loads raw = .error e → e.kind = .jsonDecodeError
  object : ∀ v, parse.loads raw = .ok v → ∃ fields, v = .dict fields
  iterable : ∀ fields v, parse.loads raw = .ok (.dict fields) → PyValue.field? k fields = some v →
    v.truthy → v.isIterable

end Loops

section Specs

variable {parse : PyText} {k raw : String}

private theorem looped_object {fields : List (String × PyValue)} (h : parse.loads raw = .ok (.dict fields)) :
    looped parse k raw = match (PyValue.field? k fields).filter PyValue.truthy with
      | none => .ok []
      | some v => v.iterate := by
  unfold looped
  rw [h]
  rfl

private theorem listUnder_object {fields : List (String × PyValue)}
    (h : parse.loads raw = .ok (.dict fields)) :
    listUnder parse k raw = match PyValue.field? k fields with
      | some (.list xs) => xs
      | _ => [] := by
  unfold listUnder
  rw [h]

private theorem stringsUnder_object {fields : List (String × PyValue)}
    (h : parse.loads raw = .ok (.dict fields)) :
    stringsUnder parse k raw = match PyValue.field? k fields with
      | some (.str s) => s.toList.map fun c => String.ofList [c]
      | some (.dict inner) => inner.map Prod.fst
      | _ => [] := by
  unfold stringsUnder
  rw [h]

private theorem iterate_ok_iff {v : PyValue} : (∃ xs, v.iterate = .ok xs) ↔ v.isIterable := by
  cases v <;> simp [PyValue.iterate, PyValue.isIterable]

theorem looped_ok_iff : (∃ xs, looped parse k raw = .ok xs) ↔ Loopable parse k raw := by
  constructor
  · rintro ⟨xs, hxs⟩
    refine ⟨?_, ?_, ?_⟩
    · intro e he
      by_contra hkind
      unfold looped at hxs
      rw [he] at hxs
      simp only [if_neg hkind] at hxs
      cases hxs
    · intro v hv
      cases v with
      | dict fields => exact ⟨fields, rfl⟩
      | _ =>
        unfold looped at hxs
        rw [hv] at hxs
        cases hxs
    · intro fields v hfields hv htruthy
      rw [looped_object hfields, hv, Option.filter_some_pos htruthy] at hxs
      exact iterate_ok_iff.mp ⟨xs, hxs⟩
  · intro h
    cases hloads : parse.loads raw with
    | error e =>
      refine ⟨[], ?_⟩
      unfold looped
      rw [hloads]
      exact if_pos (h.json e hloads)
    | ok v =>
      obtain ⟨fields, rfl⟩ := h.object v hloads
      rw [looped_object hloads]
      cases hv : (PyValue.field? k fields).filter PyValue.truthy with
      | none => exact ⟨[], rfl⟩
      | some v =>
        obtain ⟨hfield, htruthy⟩ := Option.filter_eq_some_iff.mp hv
        exact iterate_ok_iff.mpr (h.iterable fields v hloads hfield htruthy)

/-- The loop runs through the list, or through strings. -/
theorem looped_eq (h : Loopable parse k raw) :
    looped parse k raw = .ok (listUnder parse k raw ++ (stringsUnder parse k raw).map .str) := by
  cases hloads : parse.loads raw with
  | error e =>
    unfold looped listUnder stringsUnder
    rw [hloads]
    exact if_pos (h.json e hloads)
  | ok v =>
    obtain ⟨fields, rfl⟩ := h.object v hloads
    rw [looped_object hloads, listUnder_object hloads, stringsUnder_object hloads]
    cases hfield : PyValue.field? k fields with
    | none => rfl
    | some v =>
      cases htruthy : v.truthy with
      | false =>
        rw [Option.filter_some_neg (by simp [htruthy])]
        cases v with
        | list xs =>
          have hnil : xs = [] := by simpa [PyValue.truthy] using htruthy
          rw [hnil]
          rfl
        | str s =>
          have hnil : s = "" := by simpa [PyValue.truthy] using htruthy
          rw [hnil]
          rfl
        | dict inner =>
          have hnil : inner = [] := by simpa [PyValue.truthy] using htruthy
          rw [hnil]
          rfl
        | _ => rfl
      | true =>
        rw [Option.filter_some_pos htruthy]
        have hiterable := h.iterable fields v hloads hfield htruthy
        cases v with
        | list xs => exact congrArg Except.ok (List.append_nil xs).symm
        | str s => exact congrArg Except.ok (by simp)
        | dict inner => exact congrArg Except.ok (by simp)
        | _ => simp [PyValue.isIterable] at hiterable

end Specs

end LegalRag
