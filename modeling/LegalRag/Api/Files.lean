import LegalRag.Api.Calls

/-!
# The upload route

`upload_files` of `src/api/routes/files.py`: each file is checked, looked up by its checksum in the
tenant, put into MinIO and inserted; all inserts are committed together, and only then is a job enqueued
for each new document.
-/

namespace LegalRag

open Calls

/-- The settings of the upload. -/
structure UploadSettings where
  maxUploadSizeMb : Nat
  maxFilesPerRequest : Nat
  allowedMimeTypes : List String
  deriving DecidableEq, Repr

/-- An `UploadFile`. -/
structure UploadFile where
  filename : Option String
  contentType : Option String
  data : List UInt8
  deriving DecidableEq, Repr

/-- An upload request. -/
structure UploadCall where
  userId : Uuid
  tenantId : Uuid
  files : List UploadFile
  deriving DecidableEq, Repr

/-- `UploadResponse`: the documents, as `_doc_to_out` shows them, and the jobs. -/
structure UploadResponse where
  documents : List Document
  jobIds : List Uuid
  deriving DecidableEq, Repr

/-- `name.lower().endswith((".pdf", ".txt", ".md", ".docx"))`. -/
def allowedExtension (name : String) : Bool :=
  [".pdf", ".txt", ".md", ".docx"].any fun ext => ext.toList.isSuffixOf (name.toList.map Char.toLower)

/-- The checks of one file: its content type, or the error. -/
def checkFile (s : UploadSettings) (up : UploadFile) : Except ApiErr String :=
  let mime := orText up.contentType "application/octet-stream"
  if up.data.length = 0 then .error (.http 400 ("empty file: " ++ up.filename.getD "None"))
  else if up.data.length > s.maxUploadSizeMb * 1024 * 1024 then
    .error (.http 413 (up.filename.getD "None" ++ " > " ++ toString s.maxUploadSizeMb ++ "MB"))
  else if mime ∉ s.allowedMimeTypes ∧ ¬ allowedExtension (up.filename.getD "") then
    .error (.http 415 ("unsupported type: " ++ mime))
  else .ok mime

/-- The title of a new document: the name of the file, cut by `DocumentRepo.create`. -/
def titleOf (filename : Option String) : String :=
  String.ofList ((orText filename "untitled").toList.take 512)

/-- One round of the loop over the files: the document shown for it, and whether it is new. -/
def uploadFile (sha256 : List UInt8 → String) (s : UploadSettings) (c : UploadCall) (up : UploadFile) :
    Api (Document × Bool) := do
  match checkFile s up with
  | .error e => throw e
  | .ok mime =>
    let checksum := sha256 up.data
    match ← api (.byChecksum .request c.tenantId checksum) with
    | some existing => return (existing, false)
    | none =>
      let docId ← api .uuid4
      let storageKey := "tenants/" ++ toString c.tenantId ++ "/docs/" ++ toString docId ++ "/raw"
      api (.putObject storageKey up.data mime)
      let d ← api (.createDocument .request
        ⟨c.tenantId, c.userId, titleOf up.filename, mime, up.data.length, checksum, storageKey⟩)
      api (.flush .request)
      return (d, true)

/-- The loop over the files: the documents shown, and the new ones to enqueue. -/
def uploadAll (sha256 : List UInt8 → String) (s : UploadSettings) (c : UploadCall) :
    List UploadFile → Api (List Document × List Uuid)
  | [] => pure ([], [])
  | up :: ups => do
    let (d, isNew) ← uploadFile sha256 s c up
    let (ds, ids) ← uploadAll sha256 s c ups
    return (d :: ds, if isNew then d.id :: ids else ids)

/-- The loop over the new documents: the ids of their jobs. -/
def enqueueAll : List Uuid → Api (List Uuid)
  | [] => pure []
  | id :: ids => do
    let job ← api (.enqueueJob "process_document" (toString id))
    let jobs ← enqueueAll ids
    return job.toList ++ jobs

/-- `upload_files`. -/
def uploadFiles (sha256 : List UInt8 → String) (s : UploadSettings) (c : UploadCall) :
    Api UploadResponse := do
  if c.files.isEmpty then throw (.http 400 "no files")
  else if c.files.length > s.maxFilesPerRequest then
    throw (.http 400 ("too many files (max " ++ toString s.maxFilesPerRequest ++ ")"))
  else
    api .getArqPool
    let (docs, toEnqueue) ← uploadAll sha256 s c c.files
    api (.commit .request)
    let jobIds ← enqueueAll toEnqueue
    return ⟨docs, jobIds⟩

end LegalRag
