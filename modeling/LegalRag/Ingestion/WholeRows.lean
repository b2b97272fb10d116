import LegalRag.Ingestion.Consistent
import LegalRag.Ingestion.Provenance
import LegalRag.Lists.Related

/-!
# The rows of a job are inserted together

The transaction in which a job inserts rows inserts those of all chunks of what it has parsed, in their
order, and writes their number to `n_chunks`; no other transaction touches either
(`processDocument_inserts`).  What such transactions do to the tables is in `applyAll_plain` and
`applyAll_counted`.
-/

namespace LegalRag

open Calls Prog Relational

/-- The row is that of the chunk. -/
def DocumentChunk.IsOf (d : Uuid) (c : Chunk) (r : DocumentChunk) : Prop :=
  ∃ t pointId rowId, t.docId = d ∧ r = rowOf t pointId rowId c

/-- The rows are those of the chunks, one for each and in their order, and there are some. -/
structure WholeRows (d : Uuid) (cs : List Chunk) (rows : List DocumentChunk) : Prop where
  nonempty : cs ≠ []
  rows : List.Forall₂ (DocumentChunk.IsOf d) cs rows

/-- How far a transaction has come; it is not committed where it is `spoiled`. -/
inductive InsertPhase where
  | plain
  | inserted (rows : List DocumentChunk)
  | counted (rows : List DocumentChunk)
  | spoiled

/-- What a job on the document `d` may call, after what the parser has returned last. -/
def inserts (lib : ChunkerLib) (d : Uuid) : Protocol JobCalls JobErr (Option ParseResult × InsertPhase) where
  allows
    | (_, .plain), .updateDocument _ u => u.nChunks = none
    | (parsed, .plain), .insertChunks rows =>
      ∃ result, parsed = some result ∧ WholeRows d (chunksOf lib result) rows
    | (_, .inserted rows), .updateDocument d' u => d' = d ∧ u.nChunks = some rows.length
    | (_, .inserted _), .insertChunks _ | (_, .inserted _), .commit => False
    | (_, .counted _), .updateDocument .. | (_, .counted _), .insertChunks _ => False
    | (_, .spoiled), .updateDocument .. | (_, .spoiled), .insertChunks _ | (_, .spoiled), .commit => False
    | _, _ => True
  replies _ _ _ := True
  next
    | (parsed, _), .openSession, _ | (parsed, _), .rollback, _ | (parsed, _), .commit, _ =>
      (parsed, .plain)
    | (parsed, .plain), .insertChunks rows, _ => (parsed, .inserted rows)
    | (parsed, .inserted rows), .updateDocument .., _ => (parsed, .counted rows)
    | (_, tx), .parseFile .., result => (some result, tx)
    | φ, _, _ => φ
  failed
    | (parsed, _), .openSession, _ | (parsed, _), .rollback, _ | (parsed, _), .commit, _
    | (parsed, _), .updateDocument .., _ | (parsed, _), .insertChunks _, _ => (parsed, .spoiled)
    | φ, _, _ => φ

/-- A call that has to do with neither the transaction nor the parser. -/
def Aside : JobCalls.Op → Prop
  | .openSession | .rollback | .commit | .updateDocument .. | .insertChunks _ | .parseFile .. => False
  | _ => True

section Programs

variable {lib : ChunkerLib} {d : Uuid} {doc : Document} {α β : Type} {parsed : Option ParseResult}
  {φ : Option ParseResult × InsertPhase}

private theorem aside_allows {o : JobCalls.Op} (ho : Aside o) :
    (inserts lib d).allows φ o ∧
    (∀ a, (inserts lib d).replies φ o a → True ∧ (inserts lib d).next φ o a = φ) ∧
      ∀ e, (inserts lib d).failed φ o e = φ := by
  obtain ⟨parsed, tx⟩ := φ
  cases tx <;> cases o <;>
    first | exact absurd ho id | exact ⟨trivial, fun _ _ => ⟨trivial, rfl⟩, fun _ => rfl⟩

/-- A program that makes such calls only stays in its phase. -/
private theorem comesTo_of_aside {p : JobProg α} {good : α → Prop}
    (hp : p.Follows (fun _ _ => True) Aside good) : p.Obeys (inserts lib d) (ComesTo φ good) φ :=
  comesTo_of_follows (fun _ ho => aside_allows ho) hp

/-- A call that leaves the phase as it is. -/
private theorem comesTo_aside {ψ : Option ParseResult × InsertPhase} {o : JobCalls.Op}
    {f : JobCalls.Resp o → JobProg β} {good : β → Prop} (ho : Aside o)
    (hf : ∀ a, (f a).Obeys (inserts lib d) (ComesTo ψ good) φ) :
    (job o >>= f).Obeys (inserts lib d) (ComesTo ψ good) φ :=
  comesTo_step (m := fun _ => True)
    (aside_allows ho).1 (fun a ha => ⟨((aside_allows ho).2.1 a ha).2, trivial⟩) fun a _ => hf a

/-- A session: its block comes to a phase in which the transaction may be committed. -/
private theorem scope_inserts (tx : InsertPhase) {body : JobProg α} {good : α → Prop}
    (htx : (inserts lib d).allows (parsed, tx) .commit) (hφ : φ.1 = parsed)
    (hbody : body.Obeys (inserts lib d) (ComesTo (parsed, tx) good) (parsed, .plain)) :
    (sessionScope body).Obeys (inserts lib d) (ComesTo (parsed, .plain) good) φ := by
  obtain ⟨parsed', tx'⟩ := φ
  obtain rfl : parsed' = parsed := hφ
  refine scope_obeys ?_ rfl (fun e => comesTo_error _ _ _ e) hbody ?_ ?_ fun ψ _ => comesTo_error _ _ _ _
  · cases tx' <;> trivial
  · intro ψ a ha
    obtain ⟨rfl, hgood⟩ := ha a rfl
    refine ⟨htx, fun b hb => ?_, fun e => comesTo_error _ _ _ e⟩
    cases hb
    exact ⟨rfl, hgood⟩
  · rintro ⟨parsed, tx⟩ text -
    refine ⟨?_, comesTo_error _ _ _ _, fun e => comesTo_error _ _ _ e⟩
    cases tx <;> trivial

/-- `set_status` without `n_chunks`. -/
private theorem setStatus_plain {st : DocStatus} (hst : st ≠ .indexed) (error markdownKey : Option String) :
    (setStatus d st error none markdownKey).Obeys (inserts lib d) (ComesTo (parsed, .plain) fun _ => True)
      (parsed, .plain) := by
  rw [setStatus, if_neg hst]
  exact obeys_perform rfl (fun _ _ _ _ => ⟨rfl, trivial⟩) fun e => comesTo_error _ _ _ e

private theorem progress_plain (hφ : φ.1 = parsed) {st : DocStatus} (hst : st ≠ .indexed)
    (error markdownKey : Option String) :
    (sessionScope (setStatus d st error none markdownKey)).Obeys (inserts lib d)
      (ComesTo (parsed, .plain) fun _ => True) φ :=
  scope_inserts .plain trivial hφ (setStatus_plain hst error markdownKey)

private theorem beginBody_plain :
    (beginBody d).Obeys (inserts lib d) (ComesTo (parsed, .plain) fun _ => True) (parsed, .plain) := by
  refine comesTo_aside trivial fun row => ?_
  cases row with
  | none => exact fun _ _ => ⟨rfl, trivial⟩
  | some doc =>
    show (if doc.status = .indexed then pure (.inl .alreadyIndexed)
      else setStatus d .parsing none none none >>= fun _ => pure (.inr doc) :
        JobProg (JobResult ⊕ Document)).Obeys (inserts lib d) (ComesTo (parsed, .plain) fun _ => True) _
    split
    · exact fun _ _ => ⟨rfl, trivial⟩
    · exact comesTo_bind (setStatus_plain (by decide) none none) fun _ _ => fun _ _ => ⟨rfl, trivial⟩

/-- The chunks are those of what the parser has returned, and there are some. -/
def HasChunks (lib : ChunkerLib) (φ : Option ParseResult × InsertPhase) (r : Except JobErr (List Chunk)) :
    Prop :=
  ∀ cs, r = .ok cs → ∃ result, φ = (some result, .plain) ∧ cs = chunksOf lib result ∧ cs ≠ []

private theorem chunkStage_plain :
    (chunkStage lib d doc).Obeys (inserts lib d) (HasChunks lib) (parsed, .plain) := by
  have herr : ∀ φ e, HasChunks lib φ (.error e) := by
    rintro φ e cs ⟨⟩
  unfold chunkStage
  refine obeys_perform_bind trivial (fun data _ => ?_) (herr _)
  refine obeys_perform_bind trivial (fun result _ => ?_) (herr _)
  refine obeys_perform_bind trivial (fun _ _ => ?_) (herr _)
  refine obeys_bind ((progress_plain rfl (by decide) none _).mono fun φ r hr => ?_)
  cases r with
  | error e => exact herr φ e
  | ok _ =>
    obtain ⟨rfl, -⟩ := hr _ rfl
    refine obeys_perform_bind trivial (fun _ _ => ?_) (herr _)
    show (if (chunksOf lib result).isEmpty then throw (.exception "no chunks produced (empty document?)")
      else pure (chunksOf lib result) : JobProg (List Chunk)).Obeys (inserts lib d) (HasChunks lib) _
    split
    · exact herr _ _
    · rename_i hne
      intro cs hcs
      cases hcs
      exact ⟨result, rfl, rfl, fun hnil => hne (List.isEmpty_iff.mpr hnil)⟩

/-- The loop over the chunks builds the row of each. -/
private theorem buildPoints_whole (t : IndexTarget) (cs : List Chunk) (vs : List Embedding) :
    (buildPoints t cs vs).Follows (fun _ _ => True) Aside fun built =>
      List.Forall₂ (DocumentChunk.IsOf t.docId) cs (built.map Prod.snd) := by
  induction cs generalizing vs with
  | nil =>
    cases vs with
    | nil => exact List.Forall₂.nil
    | cons v vs => trivial
  | cons c cs ih =>
    cases vs with
    | nil => trivial
    | cons v vs =>
      refine follows_bind ((follows_perform trivial).mono fun pointId _ => ?_)
      refine follows_bind ((follows_perform trivial).mono fun rowId _ => ?_)
      refine follows_bind ((ih vs).mono fun rest hrest => ?_)
      exact List.Forall₂.cons ⟨t, pointId, rowId, rfl, rfl⟩ hrest

private theorem upsertAll_aside (bs : List (List Point)) : (upsertAll bs).Only Aside := by
  induction bs with
  | nil => exact only_done _
  | cons b bs ih => exact only_bind (only_perform trivial) fun _ => ih

/-- The indexer returns the rows of all chunks. -/
private theorem indexChunks_whole (cs : List Chunk) (t : IndexTarget) :
    (indexChunks cs t).Follows (fun _ _ => True) Aside (List.Forall₂ (DocumentChunk.IsOf t.docId) cs) := by
  unfold indexChunks
  split
  · rename_i hnil
    obtain rfl := List.isEmpty_iff.mp hnil
    exact List.Forall₂.nil
  · refine follows_bind ((follows_perform trivial).mono fun vs _ => ?_)
    refine follows_bind ((buildPoints_whole t cs vs).mono fun built hbuilt => ?_)
    exact follows_bind ((upsertAll_aside _).mono fun _ _ => hbuilt)

/-- The last transaction. -/
private theorem finalBody_inserts {result : ParseResult} {rows : List DocumentChunk}
    (hrows : WholeRows d (chunksOf lib result) rows) :
    (do
      bulkInsertChunks rows
      setStatus d .indexed none (some rows.length) none).Obeys (inserts lib d)
      (ComesTo (some result, .counted rows) fun _ => True) (some result, .plain) := by
  refine comesTo_step (m := fun _ => True) ⟨result, rfl, hrows⟩ (fun _ _ => ⟨rfl, trivial⟩) fun _ _ => ?_
  rw [setStatus, if_pos rfl]
  refine comesTo_aside trivial fun now => ?_
  exact obeys_perform ⟨rfl, rfl⟩ (fun _ _ _ _ => ⟨rfl, trivial⟩) fun e => comesTo_error _ _ _ e

private theorem indexStage_inserts {result : ParseResult} (hne : chunksOf lib result ≠ []) :
    (indexStage d doc (chunksOf lib result)).Obeys (inserts lib d)
      (ComesTo (some result, .plain) fun _ => True) (some result, .plain) := by
  unfold indexStage
  refine comesTo_bind (progress_plain rfl (by decide) none none) fun _ _ => ?_
  refine comesTo_aside trivial fun _ => comesTo_aside trivial fun _ => ?_
  refine comesTo_bind (comesTo_of_aside (indexChunks_whole _ _)) fun rows hrows => ?_
  refine comesTo_bind (scope_inserts (.counted rows) trivial rfl (finalBody_inserts ⟨hne, hrows⟩))
    fun _ _ => ?_
  exact comesTo_aside trivial fun _ => fun _ _ => ⟨rfl, trivial⟩

private theorem failJob_plain (text : String) :
    (failJob d text).Obeys (inserts lib d) (ComesTo (φ.1, .plain) fun _ => True) φ := by
  refine comesTo_bind (progress_plain rfl (by decide) _ none) fun _ _ => ?_
  exact comesTo_aside trivial fun _ => comesTo_error _ _ _ _

/-- A job inserts the rows of all its chunks, together with their number, or none. -/
theorem processDocument_inserts :
    (processDocument lib d).Obeys (inserts lib d) (fun _ _ => True) (none, .plain) := by
  unfold processDocument
  refine obeys_bind ((scope_inserts .plain trivial rfl beginBody_plain).mono fun φ r hr => ?_)
  rcases r with e | r | doc
  · trivial
  · trivial
  · obtain ⟨rfl, -⟩ := hr _ rfl
    refine obeys_perform_bind trivial (fun _ _ => ?_) fun _ => trivial
    -- the `except` block opens a transaction of its own
    have hcatch : ∀ φ (r : Except JobErr JobResult) (H : JobErr → JobProg JobResult),
        (∀ text, H (.exception text) = failJob d text) → H .cancelled = throw .cancelled →
          (Prog.handle H (.done r)).Obeys (inserts lib d) (fun _ _ => True) φ := by
      intro φ r H hfail hcancel
      rcases r with (text | _) | a
      · show (H _).Obeys _ _ φ
        rw [hfail]
        exact (failJob_plain text).mono fun _ _ _ => trivial
      · show (H _).Obeys _ _ φ
        rw [hcancel]
        trivial
      · trivial
    refine obeys_handle (obeys_bind (chunkStage_plain.mono fun φ r hr => ?_))
    cases r with
    | error e => exact hcatch φ _ _ (fun _ => rfl) rfl
    | ok cs =>
      obtain ⟨result, rfl, rfl, hne⟩ := hr cs rfl
      exact (indexStage_inserts hne).mono fun φ r _ => hcatch φ r _ (fun _ => rfl) rfl

end Programs

/-! ### What the transactions do -/

/-- An update that leaves `n_chunks` alone. -/
def Stmt.Plain : Stmt → Prop
  | .updateDocument _ u => u.nChunks = none
  | .insertChunks _ => False

/-- The row with another status. -/
def Document.SameCount (d d' : Document) : Prop := d.SameAs d' ∧ d'.nChunks = d.nChunks

private theorem sameAs_apply (docId : Uuid) (u : StatusUpdate) (doc : Document) :
    doc.SameAs (u.apply docId doc) := by
  unfold StatusUpdate.apply
  split
  · exact ⟨rfl, rfl⟩
  · exact .refl doc

section Transactions

variable {s s' : Stores}

/-- The transaction of a session that does not insert. -/
theorem applyAll_plain {sts : List Stmt} (hsts : ∀ st ∈ sts, st.Plain) (h : s.applyAll sts = some s') :
    s'.chunks = s.chunks ∧ List.Forall₂ Document.SameCount s.documents.rows s'.documents.rows := by
  induction sts generalizing s with
  | nil =>
    obtain rfl := Option.some.inj h
    exact ⟨rfl, List.forall₂_same.mpr fun doc _ => ⟨.refl doc, rfl⟩⟩
  | cons st sts ih =>
    obtain ⟨t, ht, hrest⟩ := Option.bind_eq_some_iff.mp h
    obtain ⟨hchunks, hdocs⟩ := ih (fun st' hst' => hsts st' (List.mem_cons_of_mem st hst')) hrest
    have hst : st.Plain := hsts st (List.mem_cons_self ..)
    cases st with
    | insertChunks rows => exact absurd hst id
    | updateDocument docId u =>
      obtain rfl := Option.some.inj ht
      have hnone : u.nChunks = none := hst
      refine ⟨hchunks, ?_⟩
      have hfirst : List.Forall₂ Document.SameCount s.documents.rows
          (s.documents.rows.map (u.apply docId)) := by
        refine List.forall₂_map_right_iff.mpr
          (List.forall₂_same.mpr fun doc _ => ⟨sameAs_apply docId u doc, ?_⟩)
        unfold StatusUpdate.apply
        split
        · show u.nChunks.or doc.nChunks = doc.nChunks
          rw [hnone, Option.none_or]
        · rfl
      exact Related.forall₂_trans (fun _ _ _ hab hbc => ⟨hab.1.trans hbc.1, hbc.2.trans hab.2⟩) hfirst hdocs

private theorem applyAll_split {sts sts' : List Stmt} (h : s.applyAll (sts ++ sts') = some s') :
    ∃ t, s.applyAll sts = some t ∧ t.applyAll sts' = some s' := by
  induction sts generalizing s with
  | nil => exact ⟨s, rfl, h⟩
  | cons st sts ih =>
    obtain ⟨t, ht, hrest⟩ := Option.bind_eq_some_iff.mp h
    obtain ⟨v, hv, hsts⟩ := ih hrest
    exact ⟨v, Option.bind_eq_some_iff.mpr ⟨t, ht, hv⟩, hsts⟩

/-- The row after the rows of the document `d` have been counted. -/
def Document.Counted (d : Uuid) (n : Nat) (doc doc' : Document) : Prop :=
  doc.SameAs doc' ∧ doc'.nChunks = if doc.id = d then some n else doc.nChunks

/-- The transaction of the session that inserts. -/
theorem applyAll_counted {sts : List Stmt} {rows : List DocumentChunk} {d : Uuid} {u : StatusUpdate}
    (hsts : ∀ st ∈ sts, st.Plain) (hu : u.nChunks = some rows.length)
    (h : s.applyAll (sts ++ [.insertChunks rows, .updateDocument d u]) = some s') :
    s.chunks.insert? rows = some s'.chunks ∧
      List.Forall₂ (Document.Counted d rows.length) s.documents.rows s'.documents.rows := by
  obtain ⟨t, ht, hlast⟩ := applyAll_split h
  obtain ⟨hchunks, hdocs⟩ := applyAll_plain hsts ht
  obtain ⟨v, hinsert, hlast⟩ := Option.bind_eq_some_iff.mp hlast
  obtain rfl : v.update d u = s' := Option.some.inj hlast
  simp only [Stores.applyStmt, Option.ite_none_right_eq_some, Option.map_eq_some_iff] at hinsert
  obtain ⟨-, c, hc, rfl⟩ := hinsert
  rw [hchunks] at hc
  refine ⟨hc, ?_⟩
  have hcounted : List.Forall₂ (Document.Counted d rows.length) t.documents.rows
      (t.documents.rows.map (u.apply d)) := by
    refine List.forall₂_map_right_iff.mpr (List.forall₂_same.mpr fun doc _ => ⟨sameAs_apply d u doc, ?_⟩)
    unfold StatusUpdate.apply
    split
    · show u.nChunks.or doc.nChunks = some rows.length
      rw [hu, Option.some_or]
    · rfl
  refine Related.forall₂_trans ?_ hdocs hcounted
  rintro a b c ⟨hab, hcount⟩ ⟨hbc, hcount'⟩
  refine ⟨hab.trans hbc, ?_⟩
  rw [hcount', hab.1, hcount]

end Transactions

/-! ### Rows that are there already -/

section Rows

variable {d : Uuid} {cs : List Chunk} {rows : List DocumentChunk}

theorem WholeRows.documentId (h : WholeRows d cs rows) : ∀ r ∈ rows, r.documentId = d := by
  intro r hr
  obtain ⟨c, -, t, pointId, rowId, ht, rfl⟩ := Related.exists_left h.rows hr
  exact ht

/-- The rows carry the numbers of the chunks. -/
theorem WholeRows.numbers (h : WholeRows d cs rows) :
    rows.map DocumentChunk.chunkIndex = cs.map Chunk.index := by
  refine (Related.map_eq_map ?_ h.rows).symm
  rintro c r ⟨t, pointId, rowId, -, rfl⟩
  rfl

/-- The rows of all chunks of a document begin with the number 0. -/
private theorem WholeRows.first {lib : ChunkerLib} {result : ParseResult}
    (h : WholeRows d (chunksOf lib result) rows) : (d, 0) ∈ rows.map DocumentChunk.key := by
  have hnumbers := h.numbers
  rw [chunkDocument_index] at hnumbers
  have hmem : 0 ∈ rows.map DocumentChunk.chunkIndex := by
    rw [hnumbers, List.mem_range]
    exact List.length_pos_iff.mpr h.nonempty
  obtain ⟨r, hr, hzero⟩ := List.mem_map.mp hmem
  exact List.mem_map.mpr ⟨r, hr, Prod.ext (h.documentId r hr) hzero⟩

/-- Where the rows of a document are inserted, it has none. -/
theorem none_of_insert? {lib lib' : ChunkerLib} {result result' : ParseResult}
    {t t' : Table DocumentChunk.key} {old : List DocumentChunk}
    (hold : WholeRows d (chunksOf lib' result') old) (hsub : old ⊆ t.rows)
    (hnew : WholeRows d (chunksOf lib result) rows) : t.insert? rows ≠ some t' := by
  intro h
  have hunique := t'.unique
  rw [Table.rows_insert? h, List.map_append, List.nodup_append] at hunique
  obtain ⟨r, hr, hkey⟩ := List.mem_map.mp hold.first
  exact hunique.2.2 _ (hkey ▸ List.mem_map_of_mem (hsub hr)) _ hnew.first rfl

end Rows

end LegalRag
