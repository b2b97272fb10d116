import LegalRag.Api.ChatPhases
import LegalRag.Db.Documents
import LegalRag.Ingestion.Process
import LegalRag.Worker.Queue

/-!
# The objects that requests store

An upload draws an id for every new file, stores its bytes under a key of that id, and inserts a row with
this key, the number of the bytes and their hash; a chat request stores nothing (`request_stores`).  Two ids
have two keys (`rawKey_inj`), and none of them is the key of a `parsed.md` (`markdownKeyOf_ne_rawKey`).
-/

namespace LegalRag

open Calls Prog

/-! ### Keys -/

/-- `f"tenants/{tenant_id}/docs/{doc_id}/raw"`. -/
def rawKey (tenantId docId : Uuid) : String :=
  "tenants/" ++ toString tenantId ++ "/docs/" ++ toString docId ++ "/raw"

/-- What follows the last slash. -/
private theorem eq_of_lastSlash {xs ys ds es : List Char} (hd : '/' ∉ ds) (he : '/' ∉ es)
    (h : xs ++ '/' :: ds = ys ++ '/' :: es) : ds = es := by
  have hlast : ∀ zs fs : List Char, '/' ∉ fs → (zs ++ '/' :: fs).reverse.takeWhile (· ≠ '/') = fs.reverse := by
    intro zs fs hfs
    have hall : ∀ c ∈ fs.reverse, decide (c ≠ '/') = true := by
      intro c hc
      have hne : c ≠ '/' := fun heq => hfs (heq ▸ List.mem_reverse.mp hc)
      simpa using hne
    rw [List.reverse_append, List.reverse_cons, List.append_assoc, List.takeWhile_append_of_pos hall]
    simp
  have hrev := hlast xs ds hd
  rw [h, hlast ys es he] at hrev
  exact (List.reverse_injective hrev).symm

private theorem slash_notMem (i : Uuid) : '/' ∉ (toString i).toList := by
  rw [Nat.toString_eq_ofList_toDigits, String.toList_ofList]
  intro h
  have hdigit := Nat.isDigit_of_mem_toDigits (by omega) (by omega) h
  revert hdigit
  decide

/-- The key of an id determines it. -/
theorem rawKey_inj {t t' i i' : Uuid} (h : rawKey t i = rawKey t' i') : i = i' := by
  have hlist : ∀ t i : Uuid, (rawKey t i).toList =
      (("tenants/".toList ++ (toString t).toList ++ "/docs".toList) ++ '/' :: (toString i).toList) ++
        "/raw".toList := by
    intro t i
    simp [rawKey, String.toList_append]
  have hkeys := congrArg String.toList h
  rw [hlist, hlist] at hkeys
  have hids := eq_of_lastSlash (slash_notMem i) (slash_notMem i') (List.append_cancel_right hkeys)
  exact uuid_str_inj (String.toList_injective hids)

/-- The key of a `parsed.md` is no key of an id. -/
theorem markdownKeyOf_ne_rawKey (storageKey : String) (t i : Uuid) :
    markdownKeyOf storageKey ≠ rawKey t i := by
  intro h
  have hlast := congrArg (fun k : String => k.toList.getLast?) h
  have hmarkdown : (markdownKeyOf storageKey).toList.getLast? = some 'd' := by
    simp [markdownKeyOf, String.toList_append, List.getLast?_append]
  have hraw : (rawKey t i).toList.getLast? = some 'w' := by
    rw [rawKey, String.toList_append, List.getLast?_append]
    rfl
  rw [hmarkdown, hraw] at hlast
  cases hlast

/-! ### The phases of an upload -/

/-- The next file; an id is drawn for its object; the object is stored; a call has failed. -/
inductive StoringPhase where
  | next
  | drawn (docId : Uuid)
  | stored (docId : Uuid) (data : List UInt8)
  | ended

/-- A call that stores neither an object nor a row of a document. -/
def StoresNothing : ApiCalls.Op → Prop
  | .putObject .. | .createDocument .. => False
  | _ => True

/-- The bytes pass the checks of an upload. -/
def UploadSettings.Accepts (s : UploadSettings) (data : List UInt8) : Prop :=
  data ≠ [] ∧ data.length ≤ s.maxUploadSizeMb * 1024 * 1024

/-- What an upload may call. -/
def stores (sha256 : List UInt8 → String) (s : UploadSettings) (c : UploadCall) :
    Protocol ApiCalls ApiErr StoringPhase where
  allows
    | .drawn docId, .putObject key data _ => key = rawKey c.tenantId docId ∧ s.Accepts data
    | .stored docId data, .createDocument _ n =>
      n.storageKey = rawKey c.tenantId docId ∧ n.sizeBytes = data.length ∧ n.checksumSha256 = sha256 data
    | .ended, _ => False
    | _, o => StoresNothing o
  replies _ _ _ := True
  next
    | .next, .uuid4, docId => .drawn docId
    | .drawn docId, .putObject _ data _, _ => .stored docId data
    | .stored .., .createDocument .., _ => .next
    | φ, _, _ => φ
  failed _ _ _ := .ended

section Programs

variable {sha256 : List UInt8 → String} {s : UploadSettings} {c : UploadCall} {α β : Type}

private theorem accepts_of_checkFile {up : UploadFile} {mime : String} (h : checkFile s up = .ok mime) :
    s.Accepts up.data := by
  unfold checkFile at h
  dsimp only at h
  split at h
  · cases h
  · rename_i hempty
    split at h
    · cases h
    · rename_i hsize
      exact ⟨fun hnil => hempty (by rw [hnil]; rfl), Nat.not_lt.mp hsize⟩

/-- A program that ends well is ready for the next file. -/
def ReadyForNext (φ : StoringPhase) (r : Except ApiErr α) : Prop := ∀ a, r = .ok a → φ = .next

private theorem readyForNext_error (φ : StoringPhase) (e : ApiErr) :
    ReadyForNext φ (.error e : Except ApiErr α) := by
  rintro a ⟨⟩

private theorem readyForNext_ok (a : α) : ReadyForNext .next (.ok a) := fun _ _ => rfl

private theorem stores_bind {φ : StoringPhase} {p : Api α} {f : α → Api β}
    (hp : p.Obeys (stores sha256 s c) ReadyForNext φ)
    (hf : ∀ a, (f a).Obeys (stores sha256 s c) ReadyForNext .next) :
    (p >>= f).Obeys (stores sha256 s c) ReadyForNext φ := by
  refine obeys_bind (hp.mono fun φ r hr => ?_)
  cases r with
  | error e => exact readyForNext_error φ e
  | ok a =>
    obtain rfl := hr a rfl
    exact hf a

private theorem stores_call {φ : StoringPhase} {o : ApiOp} {f : o.Resp → Api β}
    (ha : (stores sha256 s c).allows φ o)
    (hf : ∀ a, (f a).Obeys (stores sha256 s c) ReadyForNext ((stores sha256 s c).next φ o a)) :
    (api o >>= f).Obeys (stores sha256 s c) ReadyForNext φ :=
  obeys_perform_bind ha (fun a _ => hf a) fun e => readyForNext_error _ e

private theorem uploadFile_stores (up : UploadFile) :
    (uploadFile sha256 s c up).Obeys (stores sha256 s c) ReadyForNext .next := by
  unfold uploadFile
  cases hcheck : checkFile s up with
  | error e => exact readyForNext_error _ e
  | ok mime =>
    refine stores_call trivial fun found => ?_
    cases found with
    | some existing => exact readyForNext_ok _
    | none =>
      refine stores_call trivial fun docId => ?_
      refine stores_call ⟨rfl, accepts_of_checkFile hcheck⟩ fun _ => ?_
      refine stores_call ⟨rfl, rfl, rfl⟩ fun d => ?_
      exact stores_call trivial fun _ => readyForNext_ok _

private theorem uploadAll_stores (ups : List UploadFile) :
    (uploadAll sha256 s c ups).Obeys (stores sha256 s c) ReadyForNext .next := by
  induction ups with
  | nil => exact readyForNext_ok _
  | cons up ups ih =>
    refine stores_bind (uploadFile_stores up) fun x => ?_
    exact stores_bind ih fun y => readyForNext_ok _

private theorem enqueueAll_stores (ids : List Uuid) :
    (enqueueAll ids).Obeys (stores sha256 s c) ReadyForNext .next := by
  induction ids with
  | nil => exact readyForNext_ok _
  | cons id ids ih => exact stores_call trivial fun _ => stores_bind ih fun _ => readyForNext_ok _

private theorem uploadFiles_stores :
    (uploadFiles sha256 s c).Obeys (stores sha256 s c) ReadyForNext .next := by
  unfold uploadFiles
  split
  · exact readyForNext_error _ _
  · split
    · exact readyForNext_error _ _
    · refine stores_call trivial fun _ => stores_bind (uploadAll_stores c.files) fun x => ?_
      refine stores_call trivial fun _ => ?_
      exact stores_bind (enqueueAll_stores x.2) fun _ => readyForNext_ok _

end Programs

/-- The row of a message is the one that was given. -/
def StoredAs : (o : ApiOp) → o.Resp → Prop
  | .addMessage _ n, m => m.toNewMessage = n
  | _, _ => True

/-- A chat request stores nothing. -/
private theorem chatStream_storesNothing (b : BufferSettings) (c : ChatCall) :
    (chatStream b c).Follows StoredAs StoresNothing fun _ => True := by
  refine follows_of_obeys ?_ ?_ chatStream_phases
  · intro φ o ho
    cases φ with
    | answering =>
      rcases ho with h | ⟨n, -, rfl⟩
      · cases o <;> trivial
      · trivial
    | ended => cases o <;> trivial
    | refused => exact absurd ho id
    | _ =>
      obtain rfl := ho
      trivial
  · intro φ o a ha
    cases φ <;> cases o <;> first | exact ha | trivial

/-- What a chat request may call. -/
def storesNothing : Protocol ApiCalls ApiErr StoringPhase where
  allows _ := StoresNothing
  replies _ := StoredAs
  next φ _ _ := φ
  failed φ _ _ := φ

/-- What a request may call. -/
def requestStores (cfg : ApiSettings) : ApiRequest → Protocol ApiCalls ApiErr StoringPhase
  | .upload c => stores cfg.sha256 cfg.upload c
  | .chat .. => storesNothing

/-- The phase in which a request begins. -/
def firstPhase : ApiRequest → StoringPhase
  | .upload _ => .next
  | .chat .. => .ended

/-- A request stores the bytes of new documents, and their rows. -/
theorem request_stores (cfg : ApiSettings) (worker : WorkerSettings) (req : ApiRequest) :
    ((apiService cfg worker).program req).Obeys (requestStores cfg req) (fun _ _ => True) (firstPhase req) := by
  cases req with
  | upload c =>
    show (ApiReply.uploaded <$> uploadFiles cfg.sha256 cfg.upload c).Obeys _ _ _
    rw [map_eq_pure_bind]
    exact obeys_bind (uploadFiles_stores.mono fun _ r _ => by cases r <;> trivial)
  | chat c agent =>
    show ((fun _ => ApiReply.streamed) <$> chatStream cfg.buffer c).Obeys _ _ _
    rw [map_eq_pure_bind]
    have hchat : (chatStream cfg.buffer c).Obeys storesNothing
        (fun φ r => φ = .ended ∧ ∀ a, r = .ok a → True) .ended :=
      obeys_of_follows (fun o ho => ⟨ho, fun a ha => ⟨ha, rfl⟩, fun _ => rfl⟩)
        (chatStream_storesNothing cfg.buffer c)
    exact obeys_bind (hchat.mono fun _ r _ => by cases r <;> trivial)

end LegalRag
