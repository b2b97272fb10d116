import LegalRag.Api.UploadAtomic

/-!
# One row for each new content

A request of valid files among no others (`Deduped`): it shows one document for each file, and inserts one
row for each checksum that the tenant does not have, whatever the repetitions among the files.  The lookup
of a file sees the rows that the request has inserted before it, since `create` flushes them:
`uploadAll_dedupes` goes through the files with the rows of the session.
-/

namespace LegalRag

open Calls Prog

/-- The tenant has a document with the checksum. -/
def Has (tenant : Uuid) (checksum : String) (rows : List Document) : Prop :=
  ∃ d ∈ rows, d.tenantId = tenant ∧ d.checksumSha256 = checksum

instance (tenant : Uuid) (checksum : String) (rows : List Document) : Decidable (Has tenant checksum rows) :=
  inferInstanceAs (Decidable (∃ d ∈ rows, _))

/-- No two rows of a tenant have the same checksum. -/
def ChecksumsUnique (rows : List Document) : Prop :=
  (rows.map fun d => (d.tenantId, d.checksumSha256)).Nodup

/-- The checksums that the tenant does not have, each once, in the order of the files. -/
def missingChecksums (tenant : Uuid) (rows : List Document) (checksums : List String) : List String :=
  (checksums.filter fun x => ¬ Has tenant x rows).eraseDups

section Rows

variable {tenant : Uuid} {x : String} {xs : List String} {rows : List Document} {d : Document}

private theorem missingChecksums_of_has (h : Has tenant x rows) :
    missingChecksums tenant rows (x :: xs) = missingChecksums tenant rows xs := by
  unfold missingChecksums
  rw [List.filter_cons_of_neg (by simpa using h)]

private theorem has_append_singleton (htenant : d.tenantId = tenant) (y : String) :
    Has tenant y (rows ++ [d]) ↔ Has tenant y rows ∨ y = d.checksumSha256 := by
  constructor
  · rintro ⟨d', hd', htenant', rfl⟩
    rcases List.mem_append.mp hd' with hd' | hd'
    · exact .inl ⟨d', hd', htenant', rfl⟩
    · rw [List.mem_singleton.mp hd']
      exact .inr rfl
  · rintro (⟨d', hd', htenant', rfl⟩ | rfl)
    · exact ⟨d', List.mem_append_left _ hd', htenant', rfl⟩
    · exact ⟨d, List.mem_append_right _ (List.mem_singleton_self d), htenant, rfl⟩

/-- A row has been inserted for the first of the checksums. -/
private theorem missingChecksums_of_not_has (hd : d.tenantId = tenant)
    (h : ¬ Has tenant d.checksumSha256 rows) :
    missingChecksums tenant rows (d.checksumSha256 :: xs) =
      d.checksumSha256 :: missingChecksums tenant (rows ++ [d]) xs := by
  unfold missingChecksums
  rw [List.filter_cons_of_pos (by simpa using h), List.eraseDups_cons, List.filter_filter]
  refine congrArg (fun ys => d.checksumSha256 :: List.eraseDups ys) (List.filter_congr fun y _ => ?_)
  by_cases hy : y = d.checksumSha256
  · simp [has_append_singleton hd, hy]
  · simp [has_append_singleton hd, hy]

private theorem checksumsUnique_append_singleton (hrows : ChecksumsUnique rows)
    (hd : ¬ Has d.tenantId d.checksumSha256 rows) : ChecksumsUnique (rows ++ [d]) := by
  unfold ChecksumsUnique
  rw [List.map_append, List.nodup_append]
  refine ⟨hrows, List.nodup_singleton _, ?_⟩
  rintro a ha b hb rfl
  obtain ⟨d', hd', heq⟩ := List.mem_map.mp ha
  obtain ⟨htenant, hchecksum⟩ := Prod.mk.inj (heq.trans (List.mem_singleton.mp hb))
  exact hd ⟨d', hd', htenant, hchecksum⟩

end Rows

/-! ### The loop over the files -/

/-- What is shown for a file. -/
def Shows (sha256 : List UInt8 → String) (c : UploadCall) (rows : List Document) (up : UploadFile)
    (d : Document) : Prop :=
  d ∈ rows ∧ d.tenantId = c.tenantId ∧ d.checksumSha256 = sha256 up.data

/-- The rows that the session sees besides those of `w` are `new`, and all have different checksums. -/
structure Inserting (rid : Nat) (c : UploadCall) (w v : ApiWorld) (new : List Document) : Prop where
  pending : Pending rid w v new
  unique : ChecksumsUnique (w.documents ++ new)
  tenant : ∀ d ∈ new, d.tenantId = c.tenantId
  later : w.nextUuid ≤ v.nextUuid
  ids : ∀ d ∈ new, w.nextUuid ≤ d.id

section Loop

variable {rid : Nat} {agent : AgentReplies} {sha256 : List UInt8 → String} {s : UploadSettings}
  {c : UploadCall} {w v : ApiWorld} {new : List Document}

private theorem exec_api {α : Type} (o : ApiOp) (f : o.Resp → Api α) :
    (api o >>= f).exec (apiHandler rid agent) v =
    (cont f (apiHandler rid agent o v).1).exec (apiHandler rid agent) (apiHandler rid agent o v).2 := rfl

private theorem Inserting.frame {v' : ApiWorld} (h : Inserting rid c w v new) (hp : Pending rid w v' new)
    (hn : v.nextUuid ≤ v'.nextUuid) : Inserting rid c w v' new :=
  ⟨hp, h.unique, h.tenant, Nat.le_trans h.later hn, h.ids⟩

/-- The lookup sees the committed rows and those of the session. -/
private theorem byChecksum_eq (h : Inserting rid c w v new) (checksum : String) :
    (apiHandler rid agent (.byChecksum .request c.tenantId checksum) v).1 =
      .ok ((w.documents ++ new).find? fun d => d.tenantId = c.tenantId ∧ d.checksumSha256 = checksum) := by
  show Except.ok ((v.documents ++ (v.sessions rid .request).newDocuments).find? _) = _
  rw [h.pending.untouched.1, h.pending.session]

/-- A file whose content the tenant has. -/
private theorem uploadFile_old {up : UploadFile} {mime : String} (h : Inserting rid c w v new)
    (hmime : checkFile s up = .ok mime) (hhas : Has c.tenantId (sha256 up.data) (w.documents ++ new)) :
    ∃ d v', (uploadFile sha256 s c up).exec (apiHandler rid agent) v = (.ok (d, false), v') ∧
      Inserting rid c w v' new ∧ Shows sha256 c (w.documents ++ new) up d := by
  obtain ⟨d, hfind⟩ : ∃ d, (w.documents ++ new).find? (fun d =>
      d.tenantId = c.tenantId ∧ d.checksumSha256 = sha256 up.data) = some d := by
    obtain ⟨d', hd', hkey⟩ := hhas
    exact Option.isSome_iff_exists.mp (List.find?_isSome.mpr ⟨d', hd', decide_eq_true hkey⟩)
  have htouched : Pending rid w (v.touch rid .request).tick new :=
    h.pending.frame rfl rfl (newDocuments_touch rid .request _) rfl (Nat.le_refl _)
  have hkey := List.find?_some hfind
  refine ⟨d, (v.touch rid .request).tick, ?_, h.frame htouched (Nat.le_refl _),
    List.mem_of_find?_eq_some hfind, of_decide_eq_true hkey⟩
  unfold uploadFile
  rw [hmime]
  show ((api (.byChecksum .request c.tenantId (sha256 up.data)) >>= _).exec (apiHandler rid agent) v) = _
  rw [exec_api, byChecksum_eq h, hfind]
  rfl

/-- The rows after an INSERT. -/
private theorem Inserting.inserted {n : NewDocument} (h : Inserting rid c w v new)
    (htenant : n.tenantId = c.tenantId) (hnot : ¬ Has c.tenantId n.checksumSha256 (w.documents ++ new)) :
    Inserting rid c w (LegalRag.inserted rid n v).tick (new ++ [v.documentRow rid .request n]) := by
  constructor
  · exact h.pending.inserted n
  · rw [← List.append_assoc]
    refine checksumsUnique_append_singleton h.unique ?_
    show ¬ Has n.tenantId n.checksumSha256 _
    rw [htenant]
    exact hnot
  · intro d hd
    rcases List.mem_append.mp hd with hd | hd
    · exact h.tenant d hd
    · rw [List.mem_singleton.mp hd]
      exact htenant
  · exact Nat.le_succ_of_le h.later
  · intro d hd
    rcases List.mem_append.mp hd with hd | hd
    · exact h.ids d hd
    · rw [List.mem_singleton.mp hd]
      exact h.later

/-- A file whose content is new. -/
private theorem uploadFile_new {up : UploadFile} {mime : String} (h : Inserting rid c w v new)
    (hmime : checkFile s up = .ok mime) (hnot : ¬ Has c.tenantId (sha256 up.data) (w.documents ++ new)) :
    ∃ d v', (uploadFile sha256 s c up).exec (apiHandler rid agent) v = (.ok (d, true), v') ∧
      Inserting rid c w v' (new ++ [d]) ∧ Shows sha256 c (w.documents ++ (new ++ [d])) up d := by
  have hfind : (w.documents ++ new).find? (fun d => d.tenantId = c.tenantId ∧
      d.checksumSha256 = sha256 up.data) = none := by
    rw [List.find?_eq_none]
    intro d hd hkey
    exact hnot ⟨d, hd, of_decide_eq_true hkey⟩
  have htouch : ∀ {v : ApiWorld} {new : List Document}, Inserting rid c w v new →
      Inserting rid c w (v.touch rid .request).tick new := fun hv =>
    hv.frame (hv.pending.frame rfl rfl (newDocuments_touch rid .request _) rfl (Nat.le_refl _))
      (Nat.le_refl _)
  -- the lookup, the id of the object and the object come before the row
  have h₁ := htouch h
  generalize hv₁ : (v.touch rid .request).tick = v₁ at h₁
  have h₂ : Inserting rid c w (apiHandler rid agent .uuid4 v₁).2 new :=
    h₁.frame (h₁.pending.frame rfl rfl rfl rfl (Nat.le_succ _)) (Nat.le_succ _)
  generalize hv₂ : (apiHandler rid agent .uuid4 v₁).2 = v₂ at h₂
  let storageKey := "tenants/" ++ toString c.tenantId ++ "/docs/" ++ toString v₁.nextUuid ++ "/raw"
  have h₃ : Inserting rid c w (apiHandler rid agent (.putObject storageKey up.data mime) v₂).2 new :=
    h₂.frame (h₂.pending.frame rfl rfl rfl rfl (Nat.le_refl _)) (Nat.le_refl _)
  generalize hv₃ : (apiHandler rid agent (.putObject storageKey up.data mime) v₂).2 = v₃ at h₃
  let n : NewDocument :=
    ⟨c.tenantId, c.userId, titleOf up.filename, mime, up.data.length, sha256 up.data, storageKey⟩
  have hcreate : apiHandler rid agent (.createDocument .request n) v₃ =
      (.ok (v₃.documentRow rid .request n), (inserted rid n v₃).tick) := by
    rw [createDocument_eq, if_neg]
    rw [h₃.pending.untouched.1, h₃.pending.session]
    intro hclash
    obtain ⟨d, hd, hkey⟩ := List.any_eq_true.mp hclash
    exact hnot ⟨d, hd, of_decide_eq_true hkey⟩
  have h₄ : Inserting rid c w (inserted rid n v₃).tick (new ++ [v₃.documentRow rid .request n]) :=
    h₃.inserted rfl hnot
  refine ⟨v₃.documentRow rid .request n, ((inserted rid n v₃).tick.touch rid .request).tick, ?_,
    htouch h₄, ?_⟩
  · unfold uploadFile
    rw [hmime]
    show ((api (.byChecksum .request c.tenantId (sha256 up.data)) >>= _).exec (apiHandler rid agent) v) = _
    rw [exec_api, byChecksum_eq h, hfind]
    show ((api .uuid4 >>= _).exec (apiHandler rid agent) (v.touch rid .request).tick) = _
    rw [hv₁, exec_api, hv₂]
    show ((api (.putObject storageKey up.data mime) >>= _).exec (apiHandler rid agent) v₂) = _
    rw [exec_api, hv₃]
    show ((api (.createDocument .request n) >>= _).exec (apiHandler rid agent) v₃) = _
    rw [exec_api, hcreate]
    rfl
  · exact ⟨List.mem_append_right _ (List.mem_append_right _ (List.mem_singleton_self _)), rfl, rfl⟩

private theorem exec_uploadAll_cons {up : UploadFile} {ups : List UploadFile} {d : Document} {isNew : Bool}
    {docs : List Document} {ids : List Uuid} {v₁ v' : ApiWorld}
    (hfile : (uploadFile sha256 s c up).exec (apiHandler rid agent) v = (.ok (d, isNew), v₁))
    (hrest : (uploadAll sha256 s c ups).exec (apiHandler rid agent) v₁ = (.ok (docs, ids), v')) :
    (uploadAll sha256 s c (up :: ups)).exec (apiHandler rid agent) v =
      (.ok (d :: docs, if isNew then d.id :: ids else ids), v') := by
  unfold uploadAll
  rw [exec_bind, hfile]
  show ((uploadAll sha256 s c ups >>= _).exec (apiHandler rid agent) v₁) = _
  rw [exec_bind, hrest]
  rfl

/-- All files: one document shown for each, and one row inserted for each missing checksum. -/
theorem uploadAll_dedupes (ups : List UploadFile) (hvalid : ∀ up ∈ ups, ∃ mime, checkFile s up = .ok mime)
    (h : Inserting rid c w v new) :
    ∃ docs more v', (uploadAll sha256 s c ups).exec (apiHandler rid agent) v =
      (.ok (docs, more.map Document.id), v') ∧
      Inserting rid c w v' (new ++ more) ∧
      List.Forall₂ (Shows sha256 c (w.documents ++ (new ++ more))) ups docs ∧
      more.map (·.checksumSha256) =
        missingChecksums c.tenantId (w.documents ++ new) (ups.map fun up => sha256 up.data) := by
  induction ups generalizing v new with
  | nil => exact ⟨[], [], v, rfl, by rwa [List.append_nil], .nil, rfl⟩
  | cons up ups ih =>
    obtain ⟨mime, hmime⟩ := hvalid up (List.mem_cons_self ..)
    have hvalid' : ∀ up ∈ ups, ∃ mime, checkFile s up = .ok mime :=
      fun u hu => hvalid u (List.mem_cons_of_mem up hu)
    by_cases hhas : Has c.tenantId (sha256 up.data) (w.documents ++ new)
    · -- the tenant has the content, or an earlier file of the request
      obtain ⟨d, v₁, hfile, h₁, hd⟩ := @uploadFile_old rid agent sha256 s c w v new up mime h hmime hhas
      obtain ⟨docs, more, v', hrest, h', hshown, hsums⟩ := ih hvalid' h₁
      refine ⟨d :: docs, more, v', ?_, h', .cons ?_ hshown, ?_⟩
      · exact exec_uploadAll_cons hfile hrest
      · refine ⟨?_, hd.2⟩
        rw [← List.append_assoc]
        exact List.mem_append_left _ hd.1
      · rw [hsums, List.map_cons, missingChecksums_of_has hhas]
    · obtain ⟨d, v₁, hfile, h₁, hd⟩ := @uploadFile_new rid agent sha256 s c w v new up mime h hmime hhas
      obtain ⟨docs, more, v', hrest, h', hshown, hsums⟩ := ih hvalid' h₁
      rw [List.append_assoc, List.singleton_append] at h' hshown
      refine ⟨d :: docs, d :: more, v', ?_, h', .cons ?_ hshown, ?_⟩
      · exact exec_uploadAll_cons hfile hrest
      · refine ⟨?_, hd.2⟩
        rcases List.mem_append.mp hd.1 with hold | hnew
        · exact List.mem_append_left _ hold
        · rw [show new ++ d :: more = (new ++ [d]) ++ more by simp]
          exact List.mem_append_right _ (List.mem_append_left _ hnew)
      · rw [← hd.2.2] at hhas
        rw [List.map_cons, List.map_cons, ← hd.2.2, missingChecksums_of_not_has hd.2.1 hhas, hsums,
          List.append_assoc]

/-! ### The commit and the jobs -/

/-- The rows of a request do not clash with the committed ones. -/
private theorem commit_inserting (h : Inserting rid c w v new) : ∃ v',
    apiHandler rid agent (.commit .request) v = (.ok (), v') ∧
    v'.documents = w.documents ++ new ∧ v'.broker.queues = w.broker.queues ∧
    v'.arqPool = some ⟨w.queueName⟩ := by
  have hnone : ¬ (v.sessions rid .request).newDocuments.any fun d =>
      ApiWorld.clashes d.toNewDocument v.documents := by
    rw [h.pending.session, h.pending.untouched.1]
    intro hany
    obtain ⟨d, hd, hclash⟩ := List.any_eq_true.mp hany
    obtain ⟨d', hd', hkey⟩ := List.any_eq_true.mp hclash
    obtain ⟨htenant, hchecksum⟩ := of_decide_eq_true hkey
    have hunique := h.unique
    unfold ChecksumsUnique at hunique
    rw [List.map_append, List.nodup_append] at hunique
    exact hunique.2.2 _ (List.mem_map_of_mem hd') _ (List.mem_map_of_mem hd) (by rw [htenant, hchecksum])
  rw [commit_eq, if_neg hnone]
  refine ⟨_, rfl, ?_, h.pending.untouched.2, h.pending.pool⟩
  show v.documents ++ (v.sessions rid .request).newDocuments = _
  rw [h.pending.untouched.1, h.pending.session]

/-- Each document gets one job. -/
private theorem enqueueAll_exec (docs : List Document) (hpool : v.arqPool = some ⟨w.queueName⟩) :
    ∃ jobs v', (enqueueAll (docs.map Document.id)).exec (apiHandler rid agent) v =
      (.ok (jobs.map Job.id), v') ∧
      v'.documents = v.documents ∧ List.Forall₂ Job.Ingests jobs docs ∧
      v'.broker.queues = Function.update v.broker.queues w.queueName
        (v.broker.queues w.queueName ++ jobs) := by
  induction docs generalizing v with
  | nil => exact ⟨[], v, rfl, rfl, .nil, by rw [List.append_nil, Function.update_eq_self]⟩
  | cons d docs ih =>
    have heq := @enqueueJob_eq rid agent w v hpool d.id
    obtain ⟨jobs, v', hrest, hdocs, hjobs, hqueues⟩ := @ih (enqueued d.id w v).tick hpool
    refine ⟨⟨v.nextUuid, "process_document", toString d.id⟩ :: jobs, v', ?_, hdocs,
      .cons ⟨rfl, rfl⟩ hjobs, ?_⟩
    · show ((api (.enqueueJob "process_document" (toString d.id)) >>= _).exec (apiHandler rid agent) v) = _
      rw [exec_api, heq]
      show ((enqueueAll (docs.map Document.id) >>= _).exec (apiHandler rid agent)
        (enqueued d.id w v).tick) = _
      rw [exec_bind, hrest]
      rfl
    · rw [hqueues]
      show Function.update (Function.update v.broker.queues w.queueName _) w.queueName _ = _
      rw [Function.update_idem]
      refine congrArg (Function.update v.broker.queues w.queueName) ?_
      show Function.update v.broker.queues w.queueName _ w.queueName ++ jobs = _
      rw [Function.update_self, List.append_assoc]
      rfl

end Loop

/-! ### The request -/

/-- What a request with the result `r` did to the world `w`: it inserted the rows `new`. -/
structure Deduped (sha256 : List UInt8 → String) (c : UploadCall) (w v : ApiWorld) (r : UploadResponse)
    (new : List Document) : Prop where
  /-- One document for each file, in order. -/
  shown : List.Forall₂ (Shows sha256 c v.documents) c.files r.documents
  documents : v.documents = w.documents ++ new
  tenant : ∀ d ∈ new, d.tenantId = c.tenantId
  /-- One row for each checksum that the tenant did not have. -/
  checksums : new.map (·.checksumSha256) = missingChecksums c.tenantId w.documents
    (c.files.map fun up => sha256 up.data)
  unique : ChecksumsUnique v.documents
  ids : (new.map Document.id).Nodup ∧ ∀ d ∈ new, w.nextUuid ≤ d.id
  /-- One job for each of the rows. -/
  jobs : ∃ jobs, List.Forall₂ Job.Ingests jobs new ∧ r.jobIds = jobs.map Job.id ∧
    v.broker.queues = Function.update w.broker.queues w.queueName (w.broker.queues w.queueName ++ jobs)

/-- A request of valid files among no others succeeds, shows one document for each file, and inserts one
row with one job for each checksum that the tenant did not have, so that no checksum occurs twice in the
tenant. -/
theorem upload_dedupes (rid : Nat) (agent : AgentReplies) (sha256 : List UInt8 → String)
    (s : UploadSettings) (c : UploadCall) (w : ApiWorld) (hfiles : c.files ≠ [])
    (hmany : c.files.length ≤ s.maxFilesPerRequest)
    (hvalid : ∀ up ∈ c.files, ∃ mime, checkFile s up = .ok mime) (hunique : ChecksumsUnique w.documents) :
    ∃ r v new, (uploadFiles sha256 s c).exec (apiHandler rid agent) (w.openSessions rid) = (.ok r, v) ∧
      Deduped sha256 c w v r new := by
  have hstart : Inserting rid c w (apiHandler rid agent .getArqPool (w.openSessions rid)).2 [] := by
    refine ⟨⟨⟨rfl, rfl⟩, ?_, rfl, List.nodup_nil, ?_⟩, ?_, ?_, Nat.le_refl _, ?_⟩
    · show (Function.update w.sessions rid (fun _ => Session.fresh) rid .request).newDocuments = []
      rw [Function.update_self]
      rfl
    · rintro d hd
      cases hd
    · rwa [List.append_nil]
    · rintro d hd
      cases hd
    · rintro d hd
      cases hd
  obtain ⟨docs, new, v₁, hloop, h₁, hshown, hsums⟩ :=
    @uploadAll_dedupes rid agent sha256 s c w _ [] c.files hvalid hstart
  rw [List.nil_append] at h₁ hshown
  rw [List.append_nil] at hsums
  obtain ⟨v₂, hcommit, hdocs₂, hqueues₂, hpool₂⟩ := @commit_inserting rid agent c w v₁ new h₁
  obtain ⟨jobs, v, henqueue, hdocs, hjobs, hqueues⟩ := @enqueueAll_exec rid agent w v₂ new hpool₂
  refine ⟨⟨docs, jobs.map Job.id⟩, v, new, ?_, ?_⟩
  · have hempty : ¬ c.files.isEmpty := by
      intro h
      exact hfiles (List.isEmpty_iff.mp h)
    unfold uploadFiles
    rw [if_neg hempty, if_neg (Nat.not_lt.mpr hmany)]
    show ((api .getArqPool >>= _).exec (apiHandler rid agent) (w.openSessions rid)) = _
    rw [exec_api]
    show ((uploadAll sha256 s c c.files >>= _).exec (apiHandler rid agent) _) = _
    rw [exec_bind, hloop]
    show ((api (.commit .request) >>= _).exec (apiHandler rid agent) v₁) = _
    rw [exec_api, hcommit]
    show ((enqueueAll (new.map Document.id) >>= _).exec (apiHandler rid agent) v₂) = _
    rw [exec_bind, henqueue]
    rfl
  · have hrows : v.documents = w.documents ++ new := hdocs.trans hdocs₂
    constructor
    · rwa [hrows]
    · exact hrows
    · exact h₁.tenant
    · exact hsums
    · rw [hrows]
      exact h₁.unique
    · exact ⟨h₁.pending.ids, h₁.ids⟩
    · exact ⟨jobs, hjobs, rfl, by rw [hqueues, hqueues₂]⟩

private theorem checkFile_allowed {s : UploadSettings} {up : UploadFile} (hempty : up.data.length ≠ 0)
    (hsize : up.data.length ≤ s.maxUploadSizeMb * 1024 * 1024)
    (hmime : orText up.contentType "application/octet-stream" ∈ s.allowedMimeTypes) :
    checkFile s up = .ok (orText up.contentType "application/octet-stream") := by
  unfold checkFile
  rw [if_neg hempty, if_neg (Nat.not_lt.mpr hsize)]
  exact if_neg fun h => h.1 hmime

/-- Two contents in three files, one of which the tenant has. -/
def threeFiles : UploadCall :=
  ⟨1, 7, [⟨some "a.pdf", some "application/pdf", [65]⟩, ⟨some "b.pdf", some "application/pdf", [66]⟩,
    ⟨some "c.pdf", some "application/pdf", [65]⟩]⟩

/-- The document with the second content. -/
def secondStored : ApiWorld :=
  { ApiWorld.blank with
    nextUuid := 5
    documents :=
      [⟨⟨7, 2, "b.pdf", "application/pdf", 1, "66", "tenants/7/docs/3/raw"⟩, 4, .indexed, some 1, none,
      none, 0, some 1⟩] }

/-- A text for each content. -/
def byteText (bytes : List UInt8) : String := " ".intercalate (bytes.map fun b => toString b.toNat)

theorem upload_dedupes_threeFiles : ∃ r v new,
    (uploadFiles byteText pdfUploads threeFiles).exec (apiHandler 0 .none) (secondStored.openSessions 0) =
    (.ok r, v) ∧ Deduped byteText threeFiles secondStored v r new := by
  refine upload_dedupes 0 .none byteText pdfUploads threeFiles secondStored (List.cons_ne_nil _ _)
    (by decide) ?_ (List.nodup_singleton _)
  intro up hup
  simp only [threeFiles, List.mem_cons, List.not_mem_nil, or_false] at hup
  rcases hup with rfl | rfl | rfl <;>
    exact ⟨_, checkFile_allowed (by decide) (by decide) (List.mem_singleton.mpr rfl)⟩

end LegalRag
