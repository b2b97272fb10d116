import LegalRag.Db.Models
import Mathlib.Data.List.Sort

/-!
# The queries on `documents`

`get` and `list_for_user` of `src/db/repositories/document.py`, as functions of the committed rows.  The
rows change their status, but never the columns that `create` fills in (`Document.SameAs`).
-/

namespace LegalRag

/-- `str(id)` determines the id. -/
theorem uuid_str_inj {i j : Uuid} (h : toString i = toString j) : i = j := by
  have hdigits : Nat.toDigits 10 i = Nat.toDigits 10 j := String.ofList_injective h
  rw [← @Nat.ofDigitChars_toDigits 10 i (by omega) (by omega), hdigits,
    Nat.ofDigitChars_toDigits (by omega) (by omega)]

/-- `DocumentRepo.get`. -/
def getDocument (docId userId : Uuid) (rows : List Document) : Option Document :=
  rows.find? fun d => d.id = docId ∧ d.userId = userId

/-- `DocumentRepo.list_for_user`. -/
def listForUser (userId : Uuid) (limit offset : Nat) (rows : List Document) : List Document :=
  (((rows.filter (·.userId = userId)).insertionSort fun a b => b.createdAt ≤ a.createdAt).drop
    offset).take limit

/-- The same row, at two times. -/
def Document.SameAs (d d' : Document) : Prop := d'.id = d.id ∧ d'.toNewDocument = d.toNewDocument

theorem Document.SameAs.refl (d : Document) : d.SameAs d := ⟨rfl, rfl⟩

theorem Document.SameAs.trans {d d' d'' : Document} (h : d.SameAs d') (h' : d'.SameAs d'') : d.SameAs d'' :=
  ⟨h'.1.trans h.1, h'.2.trans h.2⟩

private theorem Document.SameAs.symm {d d' : Document} (h : d.SameAs d') : d'.SameAs d := ⟨h.1.symm, h.2.symm⟩

theorem Document.SameAs.userId {d d' : Document} (h : d.SameAs d') : d'.userId = d.userId :=
  congrArg NewDocument.userId h.2

theorem Document.SameAs.tenantId {d d' : Document} (h : d.SameAs d') : d'.tenantId = d.tenantId :=
  congrArg NewDocument.tenantId h.2

/-- A row of the user is found. -/
theorem exists_getDocument {rows : List Document} {d : Document} (hd : d ∈ rows) :
    ∃ row, getDocument d.id d.userId rows = some row := by
  unfold getDocument
  cases h : rows.find? fun d' => d'.id = d.id ∧ d'.userId = d.userId with
  | some row => exact ⟨row, rfl⟩
  | none =>
    have hnone := List.find?_eq_none.mp h d hd
    simp at hnone

theorem getDocument_id {docId userId : Uuid} {rows : List Document} {row : Document}
    (h : getDocument docId userId rows = some row) : row.id = docId ∧ row.userId = userId := by
  simpa using List.find?_some h

/-- A row of the user is on one of the pages of the list. -/
theorem exists_page {rows : List Document} {d : Document} (hd : d ∈ rows) {limit : Nat} (hlimit : 0 < limit) :
    ∃ offset, d ∈ listForUser d.userId limit offset rows := by
  have hmem : d ∈ (rows.filter (·.userId = d.userId)).insertionSort fun a b =>
      b.createdAt ≤ a.createdAt := by
    rw [List.mem_insertionSort, List.mem_filter]
    exact ⟨hd, by simp⟩
  obtain ⟨i, hi, heq⟩ := List.getElem_of_mem hmem
  refine ⟨i, ?_⟩
  unfold listForUser
  rw [List.drop_eq_getElem_cons hi, heq]
  obtain ⟨n, rfl⟩ : ∃ n, limit = n + 1 := ⟨limit - 1, by omega⟩
  rw [List.take_succ_cons]
  exact List.mem_cons_self ..

end LegalRag
