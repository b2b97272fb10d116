import LegalRag.Retrieval.Search
import LegalRag.Worker.Platform

/-!
# What a user uploads, that user can use

An upload looks its checksum up in the whole tenant, while everything that reads documents looks for those
of the user. So a run in which nobody uploads what another user of the tenant has already uploaded shows
every user documents that `get` and `list_for_user` find and whose points pass the filter of the search
(`uploads_usable`); and the second user of the same content is shown the first one's document
(`not_uploads_usable`).

The proof follows a request through its phases: it collects documents, its own in the session or the
tenant's in the table, and has them all in the table after its commit (`shows`, `ShownFits`).
-/

namespace LegalRag

open Calls Prog Service

/-- The user can read the document, list it and search its points. -/
structure Usable (p : Platform) (c : UploadCall) (d : Document) : Prop where
  own : d.userId = c.userId
  found : ∃ row, getDocument d.id c.userId p.api.documents = some row ∧ row.id = d.id ∧ row.userId = c.userId
  listed : ∀ limit, 0 < limit → ∃ offset, ∃ row ∈ listForUser c.userId limit offset p.api.documents,
    row.id = d.id
  searched : ∀ pt ∈ p.points, pt.docId = toString d.id →
    passes (mustConditions c.tenantId (some c.userId) none) pt

/-- The documents of every upload that has been answered are the user's to use. -/
def UploadsUsable (s : PlatformState) : Prop :=
  ∀ pid c r, s.procs pid = some ⟨.upload c, .done (.ok (.uploaded r))⟩ → ∀ d ∈ r.documents, Usable s.world c d

/-- A lookup of a checksum by an upload. -/
structure Lookup where
  call : UploadCall
  tenantId : Uuid
  checksum : String

/-- The lookup that a step makes. -/
def lookupOf (s : PlatformState) : PlatformLabel → Option Lookup
  | .call pid .ok =>
    match s.procs pid with
    | some ⟨.upload c, .call (.byChecksum _ tenantId checksum) _⟩ => some ⟨c, tenantId, checksum⟩
    | _ => none
  | _ => none

/-- A lookup of a checksum meets no document of another user. -/
def DedupesOwn (s : PlatformState) (l : PlatformLabel) : Prop :=
  ∀ x ∈ lookupOf s l, ∀ d ∈ s.world.api.documents,
    d.tenantId = x.tenantId → d.checksumSha256 = x.checksum → d.userId = x.call.userId

instance (s : PlatformState) (l : PlatformLabel) : Decidable (DedupesOwn s l) :=
  inferInstanceAs (Decidable (∀ x ∈ lookupOf s l, ∀ d ∈ s.world.api.documents, _))

/-! ### The phases of an upload -/

/-- The request collects the documents it will show; it has committed; a call of it has failed. -/
inductive ShowPhase where
  | collecting (docs : List Document)
  | committed (docs : List Document)
  | ended

/-- What an upload may call. -/
def shows (c : UploadCall) : Protocol ApiCalls ApiErr ShowPhase where
  allows
    | .collecting _, .byChecksum ref tenantId _ => ref = .request ∧ tenantId = c.tenantId
    | .collecting _, .createDocument ref n =>
      ref = .request ∧ n.userId = c.userId ∧ n.tenantId = c.tenantId
    | .collecting _, .commit ref => ref = .request
    | .collecting _, _ => True
    | .committed _, o => ∃ function arg, o = .enqueueJob function arg
    | .ended, _ => False
  replies _ _ _ := True
  next
    | .collecting docs, .byChecksum .., some d => .collecting (docs ++ [d])
    | .collecting docs, .createDocument .., d => .collecting (docs ++ [d])
    | .collecting docs, .commit _, _ => .committed docs
    | φ, _, _ => φ
  failed _ _ _ := .ended

/-- What an API request may call. -/
def requestShows : ApiRequest → Protocol ApiCalls ApiErr ShowPhase
  | .upload c => shows c
  | .chat .. => .free .ended

/-- An upload that is answered has committed the documents it shows. -/
def Answered : ApiRequest → ShowPhase → Except ApiErr ApiReply → Prop
  | .upload _, φ, r => ∀ resp, r = .ok (.uploaded resp) → φ = .committed resp.documents
  | .chat .., _, _ => True

section Programs

variable {c : UploadCall} {sha256 : List UInt8 → String} {cfg : UploadSettings}

/-- A program that ends well has put `f a` on the list of documents. -/
def Collected {α : Type} (docs : List Document) (f : α → List Document) (φ : ShowPhase)
    (r : Except ApiErr α) : Prop :=
  ∀ a, r = .ok a → φ = .collecting (docs ++ f a)

private theorem shows_call {α : Type} {docs : List Document} {o : ApiOp} {k : o.Resp → Api α}
    {post : ShowPhase → Except ApiErr α → Prop} (ha : (shows c).allows (.collecting docs) o)
    (hok : ∀ a, (k a).Obeys (shows c) post ((shows c).next (.collecting docs) o a))
    (herr : ∀ e, post .ended (.error e)) : (api o >>= k).Obeys (shows c) post (.collecting docs) :=
  obeys_bind (obeys_perform ha (fun a _ => hok a) herr)

private theorem uploadFile_shows (docs : List Document) (up : UploadFile) :
    (uploadFile sha256 cfg c up).Obeys (shows c) (Collected docs fun x => [x.1]) (.collecting docs) := by
  have herr : ∀ φ e, Collected docs (fun x : Document × Bool => [x.1]) φ (.error e) := by
    rintro φ e a ⟨⟩
  unfold uploadFile
  cases checkFile cfg up with
  | error e => exact herr _ _
  | ok mime =>
    refine shows_call ⟨rfl, rfl⟩ (fun found => ?_) (herr _)
    cases found with
    | some existing =>
      rintro a ⟨⟩
      rfl
    | none =>
      refine shows_call trivial (fun docId => ?_) (herr _)
      refine shows_call trivial (fun _ => ?_) (herr _)
      refine shows_call ⟨rfl, rfl, rfl⟩ (fun d => ?_) (herr _)
      refine shows_call trivial (fun _ => ?_) (herr _)
      rintro a ⟨⟩
      rfl

private theorem uploadAll_shows (docs : List Document) (ups : List UploadFile) :
    (uploadAll sha256 cfg c ups).Obeys (shows c) (Collected docs Prod.fst) (.collecting docs) := by
  induction ups generalizing docs with
  | nil =>
    rintro a ⟨⟩
    rw [List.append_nil]
  | cons up ups ih =>
    refine obeys_bind ((uploadFile_shows docs up).mono fun φ r hr => ?_)
    rcases r with e | ⟨d, isNew⟩
    · rintro a ⟨⟩
    · obtain rfl := hr _ rfl
      refine obeys_bind ((ih _).mono fun φ r hr => ?_)
      rcases r with e | ⟨ds, ids⟩
      · rintro a ⟨⟩
      · obtain rfl := hr _ rfl
        rintro a ⟨⟩
        rw [List.append_assoc]
        rfl

private theorem enqueueAll_shows (docs : List Document) (ids : List Uuid) :
    (enqueueAll ids).Obeys (shows c) (fun φ r => ∀ a, r = .ok a → φ = .committed docs) (.committed docs) := by
  induction ids with
  | nil =>
    rintro a ⟨⟩
    rfl
  | cons id ids ih =>
    refine obeys_bind (obeys_perform ⟨_, _, rfl⟩ (fun job _ => ?_) ?_)
    · refine obeys_bind (ih.mono fun φ r hr => ?_)
      cases r with
      | error e => rintro a ⟨⟩
      | ok jobs =>
        rintro a ⟨⟩
        exact hr _ rfl
    · rintro e a ⟨⟩

private theorem uploadFiles_shows :
    (uploadFiles sha256 cfg c).Obeys (shows c)
      (fun φ r => ∀ resp, r = .ok resp → φ = .committed resp.documents) (.collecting []) := by
  have herr : ∀ (φ : ShowPhase) (e : ApiErr) (resp : UploadResponse),
      (.error e : Except ApiErr UploadResponse) = .ok resp → φ = .committed resp.documents := by
    rintro φ e resp ⟨⟩
  unfold uploadFiles
  by_cases hempty : c.files.isEmpty
  · rw [if_pos hempty]
    exact herr _ _
  · rw [if_neg hempty]
    by_cases hmany : c.files.length > cfg.maxFilesPerRequest
    · rw [if_pos hmany]
      exact herr _ _
    · rw [if_neg hmany]
      refine shows_call trivial (fun _ => ?_) (herr _)
      refine obeys_bind ((uploadAll_shows [] c.files).mono fun φ r hr => ?_)
      rcases r with e | ⟨docs, toEnqueue⟩
      · exact herr _ _
      · obtain rfl := hr _ rfl
        refine shows_call rfl (fun _ => ?_) (herr _)
        refine obeys_bind ((enqueueAll_shows docs toEnqueue).mono fun φ r hr => ?_)
        cases r with
        | error e => exact herr _ _
        | ok jobs =>
          rintro resp ⟨⟩
          exact hr _ rfl

/-- A request keeps to its phases. -/
private theorem request_shows (s : ApiSettings) (worker : WorkerSettings) (req : ApiRequest) :
    ∃ φ, ((apiService s worker).program req).Obeys (requestShows req) (Answered req) φ ∧
      (φ = .ended ∨ φ = .collecting []) := by
  cases req with
  | upload c =>
    refine ⟨.collecting [], ?_, Or.inr rfl⟩
    show (ApiReply.uploaded <$> uploadFiles s.sha256 s.upload c).Obeys (shows c) (Answered (.upload c)) _
    rw [map_eq_pure_bind]
    refine obeys_bind (uploadFiles_shows.mono fun φ r hr => ?_)
    cases r with
    | error e => rintro resp ⟨⟩
    | ok resp =>
      rintro resp' hresp
      cases hresp
      exact hr _ rfl
  | chat c agent =>
    refine ⟨.ended, ?_, Or.inl rfl⟩
    exact obeys_free _ _

end Programs

/-! ### What is known of the documents in each phase -/

/-- The document belongs to the user of the request. -/
def Mine (c : UploadCall) (d : Document) : Prop := d.userId = c.userId ∧ d.tenantId = c.tenantId

/-- The request's pending rows. -/
abbrev pendingOf (p : Platform) (pid : Nat) : List Document := p.api.rowsAt (some (pid, .request))

/-- In each phase the documents shown are the user's, and in the table at last. -/
def ShownFits (c : UploadCall) (pid : Nat) : ShowPhase → Platform → Prop
  | .collecting docs, p =>
    (∀ d ∈ docs, Mine c d ∧ ∃ row ∈ p.api.documents ++ pendingOf p pid, d.SameAs row) ∧
    ∀ d ∈ pendingOf p pid, Mine c d
  | .committed docs, p => ∀ d ∈ docs, Mine c d ∧ ∃ row ∈ p.api.documents, d.SameAs row
  | .ended, _ => True

/-- The same for all requests. -/
def RequestFits : ApiRequest → Nat → ShowPhase → Platform → Prop
  | .upload c, pid, φ, p => ShownFits c pid φ p
  | .chat .., _, _, _ => True

section Fits

variable {c : UploadCall} {pid : Nat} {p p' : Platform} {docs : List Document}

private theorem ShownFits.grows {φ : ShowPhase} (h : ShownFits c pid φ p)
    (hg : Grows p.api.documents p'.api.documents)
    (hp : pendingOf p' pid = pendingOf p pid) : ShownFits c pid φ p' := by
  cases φ with
  | collecting docs =>
    refine ⟨?_, by rw [hp]; exact h.2⟩
    intro d hd
    obtain ⟨hmine, row, hrow, hs⟩ := h.1 d hd
    refine ⟨hmine, ?_⟩
    rw [hp]
    rcases List.mem_append.mp hrow with hrow | hrow
    · obtain ⟨row', hrow', hs'⟩ := hg row hrow
      exact ⟨row', List.mem_append_left _ hrow', hs.trans hs'⟩
    · exact ⟨row, List.mem_append_right _ hrow, hs⟩
  | committed docs =>
    intro d hd
    obtain ⟨hmine, row, hrow, hs⟩ := h d hd
    obtain ⟨row', hrow', hs'⟩ := hg row hrow
    exact ⟨hmine, row', hrow', hs.trans hs'⟩
  | ended => trivial

/-- One more document that is the user's. -/
private theorem ShownFits.add (h : ShownFits c pid (.collecting docs) p) {d : Document} (hd : Mine c d)
    (hrow : d ∈ p.api.documents ++ pendingOf p pid) : ShownFits c pid (.collecting (docs ++ [d])) p := by
  refine ⟨?_, h.2⟩
  intro d' hd'
  rcases List.mem_append.mp hd' with hd' | hd'
  · exact h.1 d' hd'
  · rw [List.mem_singleton.mp hd']
    exact ⟨hd, d, hrow, .refl d⟩

/-- A successful call of an upload leads to a phase that fits. -/
private theorem shownFits_call {agent : AgentReplies} {φ : ShowPhase} {o : ApiOp} {a : o.Resp}
    (ha : (shows c).allows φ o) (h : ShownFits c pid φ p)
    (hown : ∀ ref tenantId checksum, o = .byChecksum ref tenantId checksum → ∀ d ∈ p.api.documents,
      d.tenantId = tenantId → d.checksumSha256 = checksum → d.userId = c.userId)
    (hr : (apiHandler pid agent o p.api).1 = .ok a) :
    ShownFits c pid ((shows c).next φ o a) { p with api := (apiHandler pid agent o p.api).2 } := by
  have heff := apiHandler_rows pid agent o p.api
  have hg : Grows p.api.documents (apiHandler pid agent o p.api).2.documents := grows_rows heff
  cases φ with
  | ended => exact absurd ha id
  | committed docs =>
    obtain ⟨function, arg, rfl⟩ := ha
    cases heff with
    | same rows uuid =>
      intro d hd
      obtain ⟨hmine, row, hrow, hs⟩ := h d hd
      obtain ⟨row', hrow', hs'⟩ := hg row hrow
      exact ⟨hmine, row', hrow', hs.trans hs'⟩
  | collecting docs =>
    -- a call that leaves the pending rows alone
    have hsame : (apiHandler pid agent o p.api).2.rowsAt = p.api.rowsAt →
        ShownFits c pid (.collecting docs) { p with api := (apiHandler pid agent o p.api).2 } :=
      fun rows => h.grows hg (congrFun rows _)
    cases o with
    | byChecksum ref tenantId checksum =>
      obtain ⟨rfl, rfl⟩ := ha
      cases heff with
      | same rows uuid =>
        have hfind : (p.api.documents ++ pendingOf p pid).find? (fun d =>
            d.tenantId = c.tenantId ∧ d.checksumSha256 = checksum) = a := Except.ok.inj hr
        cases a with
        | none => exact hsame rows
        | some d =>
          have hkey := List.find?_some hfind
          have hmem := List.mem_of_find?_eq_some hfind
          obtain ⟨htenant, hsum⟩ := of_decide_eq_true hkey
          have hmine : Mine c d := by
            rcases List.mem_append.mp hmem with hd | hd
            · exact ⟨hown _ _ _ rfl d hd htenant hsum, htenant⟩
            · exact h.2 d hd
          refine (hsame rows).add hmine ?_
          rw [show pendingOf _ pid = pendingOf p pid from congrFun rows _]
          rw [show (apiHandler pid agent _ p.api).2.documents = p.api.documents from congrFun rows none]
          exact hmem
    | createDocument ref n =>
      obtain ⟨rfl, huser, htenant⟩ := ha
      rcases createDocument_rows pid agent .request n p.api with ⟨⟨e, he⟩, -⟩ | ⟨d, hd, hnew, -, hrows, -⟩
      · rw [he] at hr
        cases hr
      · obtain rfl : d = a := by
          rw [hd] at hr
          exact Except.ok.inj hr
        have hmine : Mine c d := by
          unfold Mine
          rw [hnew]
          exact ⟨huser, htenant⟩
        have hpending : pendingOf { p with
          api := (apiHandler pid agent (.createDocument .request n) p.api).2 } pid =
            pendingOf p pid ++ [d] := by
          unfold pendingOf
          rw [hrows, Function.update_self]
        have hdocs : (apiHandler pid agent (.createDocument .request n) p.api).2.documents =
            p.api.documents := by
          have h := congrFun hrows none
          rwa [Function.update_of_ne (by simp)] at h
        refine ⟨?_, ?_⟩
        · intro d' hd'
          rw [hpending, hdocs]
          rcases List.mem_append.mp hd' with hd' | hd'
          · obtain ⟨hm, row, hrow, hs⟩ := h.1 d' hd'
            refine ⟨hm, row, ?_, hs⟩
            rw [← List.append_assoc]
            exact List.mem_append_left _ hrow
          · rw [List.mem_singleton.mp hd']
            exact ⟨hmine, d, by simp, .refl d⟩
        · intro d' hd'
          rw [hpending] at hd'
          rcases List.mem_append.mp hd' with hd' | hd'
          · exact h.2 d' hd'
          · rw [List.mem_singleton.mp hd']
            exact hmine
    | commit ref =>
      obtain rfl : ref = .request := ha
      obtain ⟨-, ⟨⟨e, he⟩, -⟩ | hrows⟩ := commit_rows pid agent .request p.api
      · rw [he] at hr
        cases hr
      · have hdocs : (apiHandler pid agent (.commit .request) p.api).2.documents =
            p.api.documents ++ pendingOf p pid := by
          have h := congrFun hrows none
          rwa [Function.update_of_ne (by simp), Function.update_self] at h
        intro d hd
        rw [hdocs]
        exact h.1 d hd
    | _ =>
      cases heff with
      | same rows uuid => exact hsame rows

end Fits

/-! ### Runs -/

variable {cfg : ApiSettings} {worker : WorkerSettings} {lib : ChunkerLib}

/-- The platform is sound, and every request is in a phase that fits. -/
structure OwnInv (s : PlatformState) : Prop where
  sound : Sound s.world
  requests : s.Obeys requestShows Answered RequestFits

private theorem ownInv_blank : OwnInv (idle .blank) := ⟨sound_blank, idle_obeys _ _ _ _⟩

/-- A step that meets no document of another user keeps the invariant. -/
private theorem OwnInv.step {s s' : PlatformState} {l : PlatformLabel} (hi : OwnInv s) (hc : DedupesOwn s l)
    (h : (platformService cfg worker lib).step s l = some s') : OwnInv s' := by
  obtain ⟨hsound, hrows⟩ := platform_step hi.sound h
  refine ⟨hsound, obeys_step ?_ ?_ ?_ hi.requests h⟩
  · -- a request begins
    intro pid req w
    obtain ⟨φ, hobeys, hφ⟩ := request_shows cfg worker req
    refine ⟨φ, hobeys, ?_⟩
    cases req with
    | chat c agent => trivial
    | upload c =>
      rcases hφ with rfl | rfl
      · trivial
      · have hnil : pendingOf ((platformService cfg worker lib).enter pid w) pid = [] := by
          unfold pendingOf
          exact ((openSessions_rows pid w.api).2.2 pid .request).trans (if_pos rfl)
        refine ⟨?_, ?_⟩
        · intro d hd
          cases hd
        · intro d hd
          rw [hnil] at hd
          cases hd
  · -- a call of a request is answered
    intro pid req o k out φ rep hl hproc hallows hfits hrep
    cases req with
    | chat c agent =>
      exact Protocol.after_fits (fun _ _ => ⟨trivial, trivial⟩) (fun _ _ _ => trivial) hrep
    | upload c =>
      refine Protocol.after_fits_of ?_ (fun _ _ _ => trivial) hrep
      intro hout a ha
      subst hout
      refine ⟨trivial, ?_⟩
      refine shownFits_call hallows hfits ?_ ha
      rintro ref tenantId checksum rfl
      have hlookup : lookupOf s l = some ⟨c, tenantId, checksum⟩ := by simp only [lookupOf, hl, hproc]
      exact hc _ hlookup
  · -- the other requests, whose documents are still there
    intro q proc φ hq _ _ hfits
    cases hreq : proc.req with
    | chat c agent => trivial
    | upload c =>
      rw [hreq] at hfits
      exact hfits.grows hrows.grows (hrows.others q .request hq)

/-- A document that is committed and belongs to the user can be used. -/
private theorem usable_of_row {p : Platform} (hs : Sound p) {c : UploadCall} {d row : Document}
    (hmine : Mine c d) (hrow : row ∈ p.api.documents) (hsame : d.SameAs row) : Usable p c d := by
  have hid : row.id = d.id := hsame.1
  have huser : row.userId = c.userId := hsame.userId.trans hmine.1
  have htenant : row.tenantId = c.tenantId := hsame.tenantId.trans hmine.2
  constructor
  · exact hmine.1
  · obtain ⟨row', hrow'⟩ := exists_getDocument hrow
    rw [hid, huser] at hrow'
    exact ⟨row', hrow', getDocument_id hrow'⟩
  · intro limit hlimit
    obtain ⟨offset, hpage⟩ := exists_page hrow hlimit
    rw [huser] at hpage
    exact ⟨offset, row, hpage, hid⟩
  · intro pt hpt hdoc
    obtain ⟨d', hd', hof⟩ := hs.points pt hpt
    have hid' : d'.id = row.id := by
      rw [hid]
      exact uuid_str_inj (hof.1.symm.trans hdoc)
    have hrow' : d' = row := hs.eq_of_id hd' hrow hid'
    rw [passes_user, hof.2.1, hof.2.2, hrow', huser, htenant]
    exact ⟨rfl, rfl⟩

private theorem OwnInv.usable {s : PlatformState} (hi : OwnInv s) : UploadsUsable s := by
  intro pid c r hproc d hd
  obtain ⟨φ, hanswered, hfits⟩ := hi.requests pid _ hproc
  obtain rfl : φ = .committed r.documents := hanswered r rfl
  obtain ⟨hmine, row, hrow, hsame⟩ := hfits d hd
  exact usable_of_row hi.sound hmine hrow hsame

/-- In a run in which no upload meets a document of another user, all that a user is shown can be used by
that user. -/
theorem uploads_usable (cfg : ApiSettings) (worker : WorkerSettings) (lib : ChunkerLib)
    (ls : List PlatformLabel) (t : PlatformState)
    (hm : (platformService cfg worker lib).Meets DedupesOwn (idle .blank) ls)
    (hr : (platformService cfg worker lib).run (idle .blank) ls = some t) : UploadsUsable t :=
  (run_induct (fun _ _ _ hi hc hs => OwnInv.step hi hc hs) ownInv_blank hm hr).usable

/-- A worker that polls the queue of the pool. -/
def pollingWorker : WorkerSettings := ⟨createPool.defaultQueueName, 8⟩

/-- A user of tenant 1 uploads one and the same file. -/
def uploadOf (userId : Uuid) : UploadCall :=
  ⟨userId, 1, [⟨some "luat.pdf", some "application/pdf", [37]⟩]⟩

/-- The first user's upload, up to its answer. -/
def firstUpload : List PlatformLabel := .start 0 (.upload (uploadOf 1)) :: List.replicate 8 (.call 0 .ok)

/-- The worker picks up its job and indexes the document. -/
def indexFirst : List PlatformLabel :=
  [.env (.broker (.poll 0)), .env (.job (.start 0 ⟨2, plainReplies⟩))] ++
    List.replicate 27 (.env (.job (.call 0 .ok)))

/-- The first user's document is indexed, and can be used. -/
theorem uploads_usable_firstUpload :
    ∃ t, (platformService uploadCfg pollingWorker plainChunker).run (idle .blank)
      (firstUpload ++ indexFirst) = some t ∧ t.world.points.map Point.userId = ["1"] ∧ UploadsUsable t := by
  have hg : ((platformService uploadCfg pollingWorker plainChunker).run (idle .blank)
    (firstUpload ++ indexFirst)).map
      (fun s => s.world.points.map Point.userId) = some ["1"] := by decide +kernel
  obtain ⟨t, ht, hpoints⟩ := Option.map_eq_some_iff.mp hg
  exact ⟨t, ht, hpoints, uploads_usable _ _ _ _ t (by decide +kernel) ht⟩

/-- Then another user of the tenant uploads the same file. -/
def secondUpload : List PlatformLabel := .start 1 (.upload (uploadOf 2)) :: List.replicate 3 (.call 1 .ok)

/-- The document that the second request shows. -/
def shownSecond (s : PlatformState) : Option (List Uuid) :=
  match s.procs 1 with
  | some ⟨.upload c, .done (.ok (.uploaded r))⟩ =>
    if c = uploadOf 2 then some (r.documents.map (·.userId)) else none
  | _ => none

private theorem shownSecond_eq {s : PlatformState} {users : List Uuid} (h : shownSecond s = some users) :
    ∃ r, s.procs 1 = some ⟨.upload (uploadOf 2), .done (.ok (.uploaded r))⟩ ∧
      r.documents.map (·.userId) = users := by
  unfold shownSecond at h
  split at h
  · rename_i c r hproc
    by_cases hc : c = uploadOf 2
    · rw [if_pos hc, Option.some.injEq] at h
      exact ⟨r, hc ▸ hproc, h⟩
    · rw [if_neg hc] at h
      cases h
  · cases h

/-- The second user is shown the document of the first. -/
theorem not_uploads_usable :
    ¬ ∀ (cfg : ApiSettings) (worker : WorkerSettings) (lib : ChunkerLib)
      (ls : List PlatformLabel) (t : PlatformState),
      (platformService cfg worker lib).run (idle .blank) ls = some t → UploadsUsable t := by
  intro h
  have hg : ((platformService uploadCfg pollingWorker plainChunker).run (idle .blank)
    (firstUpload ++ secondUpload)).map shownSecond = some (some [1]) := by decide +kernel
  obtain ⟨t, ht, hshown⟩ := Option.map_eq_some_iff.mp hg
  obtain ⟨r, hproc, husers⟩ := shownSecond_eq hshown
  have husable := h _ _ _ _ t ht 1 _ r hproc
  obtain ⟨d, hd, huser⟩ : ∃ d ∈ r.documents, d.userId = 1 := by
    have hmem : 1 ∈ r.documents.map (·.userId) := by simp [husers]
    exact List.mem_map.mp hmem
  have hown : d.userId = 2 := (husable d hd).own
  rw [huser] at hown
  cases hown

end LegalRag
