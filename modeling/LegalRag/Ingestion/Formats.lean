import LegalRag.Api.Files
import LegalRag.Calls.Effects
import LegalRag.Ingestion.Calls

/-!
# The format of an uploaded file

`parse_file` of `src/ingestion/parsers/base.py` chooses a parser by the content type and the name of a
file.  It gets the type and the title that `upload_files` has stored.  An accepted file goes to one of the
parsers exactly if its type is one that `parse_file` knows, or the part of its name that is stored still
ends with a known extension (`dispatched_iff`).
-/

namespace LegalRag

open Calls Prog

/-- The parsers; `raw` takes the bytes as UTF-8. -/
inductive FileParser where
  | pdf
  | text
  | docx
  | raw
  deriving DecidableEq, Repr

/-- `name.endswith(ext)`. -/
def endsWith (name : List Char) (ext : String) : Bool := ext.toList.isSuffixOf name

/-- The choice that `parse_file` makes. -/
def parserOf (mimeType filename : String) : FileParser :=
  let name := filename.toList.map Char.toLower
  if mimeType = "application/pdf" ∨ endsWith name ".pdf" then .pdf
  else if mimeType ∈ ["text/plain", "text/markdown"] ∨ endsWith name ".txt" ∨ endsWith name ".md" then .text
  else if endsWith name ".docx" then .docx
  else .raw

/-- What the parsers take from libraries: PyMuPDF, zipfile and ElementTree, and `decode("utf-8",
errors="replace")`. -/
structure ParserLib where
  parsePdf : List UInt8 → Except JobErr ParseResult
  parseDocx : List UInt8 → Except JobErr ParseResult
  decode : List UInt8 → String

/-- A text of one page. -/
def onePage (text : String) : ParseResult := ⟨[⟨1, text⟩], text⟩

/-- `parse_file`, with `parse_text`. -/
def parseFile (lib : ParserLib) (data : List UInt8) (mimeType filename : String) :
    Except JobErr ParseResult :=
  match parserOf mimeType filename with
  | .pdf => lib.parsePdf data
  | .text => .ok (onePage (stripText (lib.decode data)))
  | .docx => lib.parseDocx data
  | .raw => .ok (onePage (lib.decode data))

/-- A document that is created is one for which `parse_file` has a parser. -/
def Dispatched : ApiOp → Prop
  | .createDocument _ d => parserOf d.mimeType d.title ≠ .raw
  | _ => True

/-- The content type is that of a PDF or of a text, or the first 512 characters of the name end with an
extension. -/
def Recognised (mimeType : String) (filename : Option String) : Prop :=
  mimeType ∈ ["application/pdf", "text/plain", "text/markdown"] ∨
    allowedExtension (String.ofList ((filename.getD "").toList.take 512))

instance (mimeType : String) (filename : Option String) : Decidable (Recognised mimeType filename) :=
  inferInstanceAs (Decidable (_ ∨ _))

private theorem parserOf_ne_raw_iff (mimeType filename : String) :
    parserOf mimeType filename ≠ .raw ↔
      mimeType ∈ ["application/pdf", "text/plain", "text/markdown"] ∨ allowedExtension filename := by
  -- the conditions in the order of the source
  have hconditions :
      mimeType ∈ ["application/pdf", "text/plain", "text/markdown"] ∨ allowedExtension filename = true ↔
      (mimeType = "application/pdf" ∨ endsWith (filename.toList.map Char.toLower) ".pdf") ∨
      (mimeType ∈ ["text/plain", "text/markdown"] ∨ endsWith (filename.toList.map Char.toLower) ".txt" ∨
        endsWith (filename.toList.map Char.toLower) ".md") ∨
      endsWith (filename.toList.map Char.toLower) ".docx" := by
    simp only [allowedExtension, endsWith, List.any_cons, List.any_nil, Bool.or_false, Bool.or_eq_true,
      List.mem_cons, List.not_mem_nil, or_false]
    simp only [or_assoc, or_left_comm, or_comm]
  rw [hconditions, parserOf]
  split
  · rename_i hpdf
    exact iff_of_true nofun (Or.inl hpdf)
  · rename_i hpdf
    split
    · rename_i htext
      exact iff_of_true nofun (Or.inr (Or.inl htext))
    · rename_i htext
      split
      · rename_i hdocx
        exact iff_of_true nofun (Or.inr (Or.inr hdocx))
      · rename_i hdocx
        refine iff_of_false (fun h => h rfl) ?_
        rintro (h | h | h)
        · exact hpdf h
        · exact htext h
        · exact hdocx h

/-- A file without a name is stored as `untitled`, which has no extension. -/
private theorem allowedExtension_titleOf (filename : Option String) :
    allowedExtension (titleOf filename) =
    allowedExtension (String.ofList ((filename.getD "").toList.take 512)) := by
  unfold titleOf orText
  cases filename with
  | none => decide
  | some name =>
    by_cases hempty : name = ""
    · subst hempty
      decide
    · have hfilter : (some name).filter (fun t => !t.isEmpty) = some name := by simp [hempty]
      simp only [decide_not, Bool.decide_eq_true, hfilter, Option.getD_some]

private theorem parserOf_titleOf (mimeType : String) (filename : Option String) :
    parserOf mimeType (titleOf filename) ≠ .raw ↔ Recognised mimeType filename := by
  rw [parserOf_ne_raw_iff, allowedExtension_titleOf, Recognised]

/-- The documents that the upload of a file creates have a parser exactly if its type, or the name that is
stored, is one that `parse_file` knows. -/
theorem dispatched_iff (sha256 : List UInt8 → String) (s : UploadSettings) (c : UploadCall)
    (up : UploadFile) :
    (uploadFile sha256 s c up).Only Dispatched ↔ ∀ mime, checkFile s up = .ok mime →
    Recognised mime up.filename := by
  unfold uploadFile
  cases checkFile s up with
  | error e =>
    refine iff_of_true (only_done _) ?_
    intro mime hmime
    cases hmime
  | ok mime =>
    constructor
    · intro h mime' hmime
      obtain rfl := Except.ok.inj hmime
      -- the run in which no document with this content is found
      have hcreate : Dispatched (.createDocument .request _) :=
        (((h.2.1 none trivial).2.1 0 trivial).2.1 () trivial).1
      exact (parserOf_titleOf mime up.filename).mp hcreate
    · intro h
      refine only_bind (only_perform trivial) fun found => ?_
      cases found with
      | some existing => exact only_done _
      | none =>
        refine only_bind (only_perform trivial) fun docId => ?_
        refine only_bind (only_perform trivial) fun _ => ?_
        refine only_bind (only_perform ?_) fun row => ?_
        · exact (parserOf_titleOf mime up.filename).mpr (h mime rfl)
        · exact only_bind (only_perform trivial) fun _ => only_done _

/-- The default of `allowed_mime_types`. -/
def allowedMimeTypes : List String :=
  ["application/pdf", "text/plain", "text/markdown",
    "application/vnd.openxmlformats-officedocument.wordprocessingml.document"]

/-- A DOCX file without an extension in its name. -/
def docxUpload : UploadFile :=
  ⟨some "hop-dong", some "application/vnd.openxmlformats-officedocument.wordprocessingml.document",
    [80, 75, 3, 4]⟩

/-- Not every accepted file has a parser. -/
theorem not_always_dispatched :
    ¬ ∀ (s : UploadSettings) (up : UploadFile) (mime : String), s.allowedMimeTypes = allowedMimeTypes →
      checkFile s up = .ok mime → parserOf mime (titleOf up.filename) ≠ .raw := by
  intro h
  refine h ⟨50, 20, allowedMimeTypes⟩ docxUpload
    "application/vnd.openxmlformats-officedocument.wordprocessingml.document" rfl ?_ ?_
  · decide +kernel
  · decide +kernel

end LegalRag
