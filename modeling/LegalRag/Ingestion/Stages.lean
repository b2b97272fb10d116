import LegalRag.Ingestion.JobSpec
import LegalRag.Redis.Lists

/-!
# What the stages of an ingestion job do

The effect on the stores of `set_status` in a session of its own, of building and upserting the points,
and of the last session, which inserts the rows and sets `indexed`.
-/

namespace LegalRag

open Calls Prog Relational

variable {faults : Bool} {pid : Nat} {env : JobReplies} {inv Q : Stores → Prop}

/-- The document is not indexed. -/
def NotIndexed (d : Uuid) (s : Stores) : Prop :=
  ∀ doc ∈ s.documents.rows, doc.id = d → doc.status ≠ .indexed

/-- The document is indexed. -/
def IsIndexed (d : Uuid) (s : Stores) : Prop :=
  ∃ doc ∈ s.documents.rows, doc.id = d ∧ doc.status = .indexed

theorem notIndexed_iff {d : Uuid} {s : Stores} : NotIndexed d s ↔ ¬ IsIndexed d s := by
  constructor
  · rintro h ⟨doc, hdoc, hid, hst⟩
    exact h doc hdoc hid hst
  · intro h doc hdoc hid hst
    exact h ⟨doc, hdoc, hid, hst⟩

theorem notIndexed_update {d : Uuid} {u : StatusUpdate} (hu : u.status ≠ .indexed) (s : Stores) :
    NotIndexed d (s.update d u) := by
  intro doc hdoc hid
  obtain ⟨doc', -, rfl⟩ : ∃ doc' ∈ s.documents.rows, u.apply d doc' = doc := List.mem_map.mp hdoc
  have hid' : doc'.id = d := by
    rw [← hid]
    exact (u.apply_key d doc').symm
  simp only [StatusUpdate.apply, hid', if_true]
  exact hu

/-! ### `set_status` -/

private theorem collects_setStatus {st : DocStatus} (hst : st ≠ .indexed) (d : Uuid) (error : Option String)
    (nChunks : Option Nat) (markdownKey : Option String) (s : Stores) :
    Collects faults pid env s (setStatus d st error nChunks markdownKey) fun r sts =>
      (∀ a, r = .ok a → sts = [.updateDocument d ⟨st, error, nChunks, markdownKey, none⟩]) ∧
        ∀ e, r = .error e → faults = true := by
  rw [setStatus, if_neg hst]
  refine collects_call () [.updateDocument d ⟨st, error, nChunks, markdownKey, none⟩]
    (fun w hs hp => statement_accepted hs hp rfl) (collects_done ⟨fun _ _ => rfl, ?_⟩)
    fun hf e sts' => collects_done ⟨?_, fun _ _ => hf⟩
  · rintro e he
    cases he
  · rintro a ha
    cases ha

/-- `set_status` in a session of its own. -/
theorem spec_setStatus {st : DocStatus} (hst : st ≠ .indexed) (d : Uuid) (error : Option String)
    (nChunks : Option Nat) (markdownKey : Option String) {R : Except JobErr Unit → Stores → Prop}
    (hinv : ∀ s, Q s → inv s ∧ inv (s.update d ⟨st, error, nChunks, markdownKey, none⟩))
    (hok : ∀ s, Q s → R (.ok ()) (s.update d ⟨st, error, nChunks, markdownKey, none⟩))
    (herr : faults = true → ∀ e s, Q s →
      R (.error e) s ∧ R (.error e) (s.update d ⟨st, error, nChunks, markdownKey, none⟩)) :
    Spec faults pid env inv Q (sessionScope (setStatus d st error nChunks markdownKey)) R := by
  refine spec_scope (fun s _ => collects_setStatus hst d error nChunks markdownKey s)
    (fun s hs => (hinv s hs).1) ?_ ?_ ?_ ?_
  · intro s a sts s' hs hk hc
    rw [hk.1 a rfl] at hc
    obtain rfl : s.update d ⟨st, error, nChunks, markdownKey, none⟩ = s' :=
      by simpa [Stores.applyAll, Stores.applyStmt] using hc
    exact ⟨(hinv s hs).2, hok s hs⟩
  · intro s a sts hs hk hc
    rw [hk.1 a rfl] at hc
    simp [Stores.applyAll, Stores.applyStmt] at hc
  · intro s e sts hs hk
    exact (herr (hk.2 e rfl) e s hs).1
  · rintro hf s e s' hs (rfl | ⟨a, sts, hk, hc⟩)
    · exact (herr hf e s' hs).1
    · rw [hk.1 a rfl] at hc
      obtain rfl : s.update d ⟨st, error, nChunks, markdownKey, none⟩ = s' :=
        by simpa [Stores.applyAll, Stores.applyStmt] using hc
      exact (herr hf e s hs).2

/-! ### Calls that leave the stores alone -/

theorem spec_publish (d : Uuid) (e : StatusEvent) {R : Except JobErr Unit → Stores → Prop}
    (hinv : ∀ s, Q s → inv s) (hok : ∀ s, Q s → R (.ok ()) s)
    (herr : faults = true → ∀ x s, Q s → R (.error x) s) : Spec faults pid env inv Q (publishStatus d e) R :=
  spec_call (fun _ => .ok ()) id (fun _ => rfl) (fun _ => rfl) (fun s hs => ⟨hinv s hs, hinv s hs⟩)
    hok fun hf x s hs => ⟨herr hf x s hs, herr hf x s hs⟩

/-! ### Building and upserting the points -/

/-- The stores with another supply of ids. -/
def Stores.withNextUuid (n : Nat) (s : Stores) : Stores := { s with nextUuid := n }

/-- The points and rows that the loop of `index_chunks` builds, when the next fresh id is `n`. -/
def builtFrom (t : IndexTarget) : Nat → List Chunk → List Embedding → List (Point × DocumentChunk)
  | n, c :: cs, v :: vs => (pointOf t n c v, rowOf t n (n + 1) c) :: builtFrom t (n + 2) cs vs
  | _, _, _ => []

private theorem builtFrom_cons (t : IndexTarget) (n : Nat) (c : Chunk) (v : Embedding) (cs : List Chunk)
    (vs : List Embedding) :
    builtFrom t n (c :: cs) (v :: vs) = (pointOf t n c v, rowOf t n (n + 1) c) :: builtFrom t
      (n + 2) cs vs := rfl

/-- How the loop of `index_chunks` ends, started from the stores `s`. -/
def Built (faults : Bool) (t : IndexTarget) (cs : List Chunk) (vs : List Embedding) (s : Stores)
    (r : Except JobErr (List (Point × DocumentChunk))) (s' : Stores) : Prop :=
  (∃ m, s.nextUuid ≤ m ∧ s' = s.withNextUuid m) ∧
    (∀ b, r = .ok b →
      b = builtFrom t s.nextUuid cs vs ∧ s'.nextUuid = s.nextUuid + 2 * cs.length ∧
      cs.length = vs.length) ∧ ∀ e, r = .error e → faults = true ∨ cs.length ≠ vs.length

private theorem Built.error {t : IndexTarget} {cs : List Chunk} {vs : List Embedding} {s : Stores} {m : Nat}
    {e : JobErr} (hm : s.nextUuid ≤ m) (h : faults = true ∨ cs.length ≠ vs.length) :
    Built faults t cs vs s (.error e) (s.withNextUuid m) := by
  refine ⟨⟨m, hm, rfl⟩, ?_, fun _ _ => h⟩
  rintro b hb
  cases hb

theorem spec_buildPoints (t : IndexTarget) (cs : List Chunk) (vs : List Embedding) (s : Stores)
    (hinv : ∀ m, s.nextUuid ≤ m → inv (s.withNextUuid m)) :
    Spec faults pid env inv (fun u => u = s) (buildPoints t cs vs) (Built faults t cs vs s) := by
  have hi : inv s := hinv s.nextUuid (Nat.le_refl _)
  induction cs generalizing vs s with
  | nil =>
    cases vs with
    | nil =>
      refine spec_done (fun u hu => by rw [hu]; exact hi) ?_
      rintro u rfl
      refine ⟨⟨u.nextUuid, Nat.le_refl _, rfl⟩, ?_, ?_⟩
      · rintro b hb
        cases hb
        exact ⟨rfl, rfl, rfl⟩
      · rintro e he
        cases he
    | cons v vs =>
      refine spec_done (fun u hu => by rw [hu]; exact hi) ?_
      rintro u rfl
      exact Built.error (Nat.le_refl _) (Or.inr (by simp))
  | cons c cs ih =>
    cases vs with
    | nil =>
      refine spec_done (fun u hu => by rw [hu]; exact hi) ?_
      rintro u rfl
      exact Built.error (Nat.le_refl _) (Or.inr (by simp))
    | cons v vs =>
      have h1 := hinv (s.nextUuid + 1) (Nat.le_add_right _ _)
      have h2 := hinv (s.nextUuid + 2) (Nat.le_add_right _ _)
      have herr : ∀ k : Nat, faults = true → ∀ e, Built faults t (c :: cs) (v :: vs) s (.error e)
          (s.withNextUuid (s.nextUuid + k)) :=
          fun k hf e => Built.error (Nat.le_add_right _ _) (Or.inl hf)
      have hrest : Spec faults pid env inv (fun u => u = s.withNextUuid (s.nextUuid + 2))
        (buildPoints t cs vs) (Built faults t cs vs (s.withNextUuid (s.nextUuid + 2))) :=
        ih vs (s.withNextUuid (s.nextUuid + 2))
          (fun m hm => hinv m (Nat.le_trans (Nat.le_add_right _ _) hm)) h2
      -- the id of the point, the id of the row, and the rest of the loop
      refine spec_ok s.nextUuid (s.withNextUuid (s.nextUuid + 1)) (by rintro w rfl; rfl)
        (by rintro w rfl; rfl) hi h1 ?_ fun hf e => ⟨herr 0 hf e, herr 1 hf e⟩
      refine spec_ok (s.nextUuid + 1) (s.withNextUuid (s.nextUuid + 2))
        (by rintro w hw; simp [jobReply, hw, Stores.withNextUuid])
        (by rintro w hw; simp [jobReply, hw, Stores.withNextUuid]) h1 h2 ?_ fun hf e =>
        ⟨herr 1 hf e, herr 2 hf e⟩
      refine spec_bind hrest (fun rest => spec_done ?_ ?_) ?_
      · rintro u ⟨⟨m, hm, rfl⟩, -⟩
        exact hinv m (Nat.le_trans (Nat.le_add_right _ 2) hm)
      · rintro u ⟨⟨m, hm, rfl⟩, hb, -⟩
        obtain ⟨hrest, hnext, hlen⟩ := hb rest rfl
        refine ⟨⟨m, Nat.le_trans (Nat.le_add_right _ 2) hm, rfl⟩, ?_, ?_⟩
        · rintro b hb
          cases hb
          refine ⟨?_, ?_, by simp [hlen]⟩
          · rw [hrest]
            rfl
          · rw [hnext]
            have h : ∀ n k : Nat, n + 2 + 2 * k = n + 2 * (k + 1) := by omega
            exact h s.nextUuid cs.length
        · rintro e he
          cases he
      · rintro e u - ⟨⟨m, hm, rfl⟩, -, he⟩
        refine Built.error (Nat.le_trans (Nat.le_add_right _ 2) hm) ?_
        simpa using he e rfl

/-- The effect of a list of upserts. -/
def Stores.upserts (bs : List (List Point)) (s : Stores) : Stores := bs.foldl (fun s b => s.upsert b) s

theorem spec_upsertAll (bs : List (List Point)) (s : Stores)
    (hinv : ∀ bs', bs' <+: bs → inv (s.upserts bs')) :
    Spec faults pid env inv (fun u => u = s) (upsertAll bs) fun r u =>
      (∃ bs', bs' <+: bs ∧ u = s.upserts bs') ∧ (∀ a, r = .ok a → u = s.upserts bs) ∧
        ∀ e, r = .error e → faults = true := by
  induction bs generalizing s with
  | nil =>
    refine spec_done (fun u hu => by rw [hu]; exact hinv [] List.prefix_rfl) ?_
    rintro u rfl
    refine ⟨⟨[], List.prefix_rfl, rfl⟩, fun _ _ => rfl, ?_⟩
    rintro e he
    cases he
  | cons b bs ih =>
    have hpre : ∀ bs', bs' <+: bs → b :: bs' <+: b :: bs :=
      fun bs' h => List.cons_prefix_cons.mpr ⟨rfl, h⟩
    have h0 : inv s := hinv [] (List.nil_prefix)
    have h1 : inv (s.upsert b) := hinv [b] (hpre [] List.nil_prefix)
    have hfault : faults = true → ∀ (e : JobErr) (u : Stores), (u = s ∨ u = s.upsert b) →
        (∃ bs', bs' <+: b :: bs ∧ u = s.upserts bs') ∧
          (∀ a : Unit, (.error e : Except JobErr Unit) = .ok a → u = s.upserts (b :: bs)) ∧
          ∀ x, (.error e : Except JobErr Unit) = .error x → faults = true := by
      rintro hf e u hu
      refine ⟨?_, ?_, fun _ _ => hf⟩
      · rcases hu with rfl | rfl
        · exact ⟨[], List.nil_prefix, rfl⟩
        · exact ⟨[b], hpre [] List.nil_prefix, rfl⟩
      · rintro a ha
        cases ha
    refine spec_ok () (s.upsert b) (fun w _ => rfl) (by rintro w rfl; rfl) h0 h1 ?_
      fun hf e => ⟨hfault hf e _ (Or.inl rfl), hfault hf e _ (Or.inr rfl)⟩
    refine (ih (s.upsert b) fun bs' h => hinv (b :: bs') (hpre bs' h)).mono (fun _ h => h) ?_
    rintro r u - ⟨⟨bs', hbs', rfl⟩, hok, herr⟩
    exact ⟨⟨b :: bs', hpre bs' hbs', rfl⟩, hok, herr⟩

/-! ### What is built -/

theorem builtFrom_docs (t : IndexTarget) (n : Nat) (cs : List Chunk) (vs : List Embedding) :
    ∀ x ∈ builtFrom t n cs vs, x.1.docId = toString t.docId ∧ x.2.documentId = t.docId ∧
      x.2.qdrantPointId = some x.1.id ∧ x.1.chunkIndex = x.2.chunkIndex ∧ x.1.text = x.2.text := by
  induction cs generalizing n vs with
  | nil => simp [builtFrom]
  | cons c cs ih =>
    cases vs with
    | nil => simp [builtFrom]
    | cons v vs =>
      intro x hx
      rw [builtFrom_cons, List.mem_cons] at hx
      rcases hx with rfl | hx
      · exact ⟨rfl, rfl, rfl, rfl, rfl⟩
      · exact ih (n + 2) vs x hx

/-- The rows carry the numbers of their chunks, and fit when these do. -/
theorem builtFrom_rows (t : IndexTarget) (n : Nat) {cs : List Chunk} {vs : List Embedding}
    (hlen : cs.length = vs.length) :
    ((builtFrom t n cs vs).map Prod.snd).map DocumentChunk.chunkIndex = cs.map Chunk.index ∧
      ((builtFrom t n cs vs).map Prod.snd).map DocumentChunk.headingPath = cs.map Chunk.headingPath := by
  induction cs generalizing n vs with
  | nil => simp [builtFrom]
  | cons c cs ih =>
    cases vs with
    | nil => simp at hlen
    | cons v vs =>
      have hlen : cs.length = vs.length := by simpa using hlen
      obtain ⟨h1, h2⟩ := ih (n + 2) hlen
      simp only [builtFrom_cons, List.map_cons, h1, h2]
      exact ⟨rfl, rfl⟩

/-- The ids of the points are fresh and pairwise different. -/
theorem builtFrom_ids (t : IndexTarget) (n : Nat) (cs : List Chunk) (vs : List Embedding) :
    (∀ p ∈ (builtFrom t n cs vs).map Prod.fst, n ≤ p.id ∧ p.id < n + 2 * cs.length) ∧
      (((builtFrom t n cs vs).map Prod.fst).map Point.id).Nodup := by
  induction cs generalizing n vs with
  | nil => simp [builtFrom]
  | cons c cs ih =>
    cases vs with
    | nil => simp [builtFrom]
    | cons v vs =>
      obtain ⟨hb, hn⟩ := ih (n + 2) vs
      rw [builtFrom_cons]
      constructor
      · intro p hp
        rw [List.map_cons, List.mem_cons] at hp
        rcases hp with rfl | hp
        · have h : n ≤ n ∧ n < n + 2 * (cs.length + 1) := by omega
          exact h
        · have h := hb p hp
          have hlen : (c :: cs).length = cs.length + 1 := rfl
          rw [hlen]
          have harith : ∀ a b k : Nat, a + 2 ≤ b ∧ b < a + 2 + 2 * k → a ≤ b ∧ b < a + 2 * (k + 1) := by omega
          exact harith _ _ _ h
      · simp only [List.map_cons, List.nodup_cons]
        refine ⟨?_, hn⟩
        intro hm
        obtain ⟨p, hp, hid⟩ := List.mem_map.mp hm
        have h := (hb p hp).1
        have hid : p.id = n := hid
        rw [hid] at h
        have hlt : n + 2 ≤ n := h
        omega

/-! ### Upserting fresh points -/

/-- Upserting points with new ids appends them. -/
private theorem upsert_points {b : List Point} {s : Stores} (h : ∀ p ∈ s.points, ∀ q ∈ b, q.id ≠ p.id) :
    (s.upsert b).points = s.points ++ b := by
  have hkeep : s.points.filter (fun p => ¬ b.any fun q => q.id = p.id) = s.points := by
    refine List.filter_eq_self.mpr fun p hp => ?_
    simpa using fun q hq => h p hp q hq
  rw [Stores.upsert, hkeep]

/-- Upserting batches of points with new and pairwise different ids appends them in order. -/
theorem upserts_points {bs : List (List Point)} {s : Stores}
    (hnew : ∀ p ∈ s.points, ∀ q ∈ bs.flatten, q.id ≠ p.id)
    (hnodup : (bs.flatten.map Point.id).Nodup) : (s.upserts bs).points = s.points ++ bs.flatten := by
  induction bs generalizing s with
  | nil => simp [Stores.upserts]
  | cons b bs ih =>
    rw [List.flatten_cons, List.map_append, List.nodup_append] at hnodup
    obtain ⟨-, hn, hdisj⟩ := hnodup
    have hb : (s.upsert b).points = s.points ++ b :=
      upsert_points fun p hp q hq => hnew p hp q (by simp [hq])
    have hrest : (s.upserts (b :: bs)).points = (s.upsert b).points ++ bs.flatten := by
      refine ih ?_ hn
      intro p hp q hq
      rw [hb, List.mem_append] at hp
      rcases hp with hp | hp
      · exact hnew p hp q (by rw [List.flatten_cons, List.mem_append]; exact Or.inr hq)
      · exact fun he => hdisj p.id (List.mem_map_of_mem hp) q.id (List.mem_map_of_mem hq) he.symm
    rw [hrest, hb, List.flatten_cons, List.append_assoc]

/-- Upserts change the points only. -/
theorem upserts_eq (bs : List (List Point)) (s : Stores) :
    s.upserts bs = { s with points := (s.upserts bs).points } := by
  induction bs generalizing s with
  | nil => rfl
  | cons b bs ih => exact ih (s.upsert b)

/-! ### The last session -/

/-- The values that the last session sets. -/
def indexedUpdate (nChunks clock : Nat) : StatusUpdate := ⟨.indexed, none, some nChunks, none, some clock⟩

/-- The last session of a job. -/
def finalBody (d : Uuid) (rows : List DocumentChunk) : JobProg Unit := do
  bulkInsertChunks rows
  setStatus d .indexed none (some rows.length) none

theorem collects_final (d : Uuid) (rows : List DocumentChunk) (s : Stores) :
    Collects faults pid env s (finalBody d rows) fun r sts =>
      (∀ a, r = .ok a → sts = [.insertChunks rows, .updateDocument d (indexedUpdate rows.length env.clock)]) ∧
        ∀ e, r = .error e → faults = true ∨ s.applyStmt (.insertChunks rows) = none := by
  have hfail : ∀ (e : JobErr) (sts : List Stmt), faults = true ∨ s.applyStmt (.insertChunks rows) = none →
      CollectsFrom faults pid env s sts (.done (.error e) : JobProg Unit) fun r sts =>
        (∀ a, r = .ok a → sts = [.insertChunks rows,
          .updateDocument d (indexedUpdate rows.length env.clock)]) ∧
          ∀ e, r = .error e → faults = true ∨ s.applyStmt (.insertChunks rows) = none := by
    refine fun e sts h => collects_done ⟨?_, fun _ _ => h⟩
    rintro a ha
    cases ha
  cases hins : s.applyStmt (.insertChunks rows) with
  | none =>
    rw [hins] at hfail
    have hnone : s.applyAll [.insertChunks rows] = none := by simp [Stores.applyAll, hins]
    exact collects_refused (fun w hs hp => statement_refused hs hp hnone) (hfail _ _ (Or.inr rfl))
      fun hf e sts' => hfail e sts' (Or.inl hf)
  | some s' =>
    rw [hins] at hfail
    have hsome : (s.applyAll [.insertChunks rows]).isSome := by simp [Stores.applyAll, hins]
    have hboth :
        (s.applyAll [.insertChunks rows,
        .updateDocument d (indexedUpdate rows.length env.clock)]).isSome := by
      rw [Stores.applyAll, hins]
      rfl
    refine collects_call () [.insertChunks rows] (fun w hs hp => statement_accepted hs hp hsome) ?_
      fun hf e sts' => hfail e sts' (Or.inl hf)
    -- the clock is read, and the UPDATE follows
    refine collects_call env.clock [] (fun w hs hp => ⟨rfl, hs, hp⟩) ?_
      fun hf e sts' => hfail e sts' (Or.inl hf)
    refine collects_call () [.updateDocument d (indexedUpdate rows.length env.clock)]
      (fun w hs hp => statement_accepted hs hp hboth) (collects_done ⟨fun _ _ => rfl, ?_⟩)
      fun hf e sts' => hfail e sts' (Or.inl hf)
    rintro e he
    cases he

/-- The rows of a table after the last session. -/
theorem applyAll_final {d : Uuid} {rows : List DocumentChunk} {n clock : Nat} {s s' : Stores}
    (h : s.applyAll [.insertChunks rows, .updateDocument d (indexedUpdate n clock)] = some s') :
    s'.chunks.rows = s.chunks.rows ++ rows ∧ s'.points = s.points ∧ s'.nextUuid = s.nextUuid ∧
      s'.documents.rows = s.documents.rows.map ((indexedUpdate n clock).apply d) := by
  simp only [Stores.applyAll, Stores.applyStmt, Option.bind_some, Option.bind_eq_some_iff] at h
  obtain ⟨s₁, h₁, h₂⟩ := h
  split at h₁
  · obtain ⟨t, ht, rfl⟩ := Option.map_eq_some_iff.mp h₁
    obtain rfl := Option.some.inj h₂
    exact ⟨Table.rows_insert? ht, rfl, rfl, rfl⟩
  · cases h₁

end LegalRag
