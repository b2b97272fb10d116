import LegalRag.Api.Listing

/-!
# Archived conversations

An id is drawn once (`ConvIds`), so no INSERT brings back a conversation that has been committed, and the
counters of a turn that is still going on do not touch `archived`.  Once `archive_conversation` has returned,
its conversation is in no list that is asked for later (`archived_for_good`).
-/

namespace LegalRag

open Calls Service

/-! ### Ids are drawn once -/

/-- The id of the conversation that a statement inserts. -/
def ConvStmt.newId : ConvStmt → Option Uuid
  | .insertConversation c => some c.id
  | .insertMessage _ | .updateCounters .. | .setArchived .. => none

/-- The conversations that a transaction is going to insert. -/
def ConvSession.newIds (s : ConvSession) : List Uuid := s.pending.filterMap ConvStmt.newId

/-- The id has been drawn. -/
def ConvWorld.Drawn (w : ConvWorld) (id : Uuid) : Prop := (Nat.unpair id).2 < w.drawn (ownerOf id)

/-- The id of a committed conversation. -/
def ConvTables.Holds (t : ConvTables) (id : Uuid) : Prop := ∃ c ∈ t.conversations, c.id = id

/-- A conversation is in the table, or in one transaction, or nowhere. -/
structure ConvIds (w : ConvWorld) : Prop where
  rows : ∀ id, w.tables.Holds id → w.Drawn id
  pending : ∀ u pid ref, ∀ id ∈ (w.sessions u pid ref).newIds, w.Drawn id ∧ ¬ w.tables.Holds id
  once : ∀ u pid ref u' pid' ref' id, id ∈ (w.sessions u pid ref).newIds →
    id ∈ (w.sessions u' pid' ref').newIds → u' = u ∧ pid' = pid ∧ ref' = ref

private theorem holds_apply (t : ConvTables) (st : ConvStmt) (id : Uuid) :
    (st.apply t).Holds id ↔ t.Holds id ∨ st.newId = some id := by
  have hmap : ∀ st : ConvStmt, (∃ c ∈ t.conversations.map st.update, c.id = id) ↔ t.Holds id := by
    intro st
    constructor
    · rintro ⟨c, hc, rfl⟩
      obtain ⟨d, hd, rfl⟩ := List.mem_map.mp hc
      exact ⟨d, hd, (ConvStmt.update_id st d).symm⟩
    · rintro ⟨c, hc, rfl⟩
      exact ⟨st.update c, List.mem_map_of_mem hc, ConvStmt.update_id st c⟩
  cases st with
  | insertConversation c =>
    constructor
    · rintro ⟨d, hd, rfl⟩
      rcases List.mem_append.mp hd with hd | hd
      · exact Or.inl ⟨d, hd, rfl⟩
      · obtain rfl := List.mem_singleton.mp hd
        exact Or.inr rfl
    · rintro (⟨d, hd, rfl⟩ | hnew)
      · exact ⟨d, List.mem_append_left _ hd, rfl⟩
      · exact ⟨c, List.mem_append_right _ (List.mem_singleton_self c), Option.some.inj hnew⟩
  | insertMessage m => exact ⟨Or.inl, fun h => h.resolve_right nofun⟩
  | updateCounters convId n at' updatedAt => exact (hmap _).trans ⟨Or.inl, fun h => h.resolve_right nofun⟩
  | setArchived convId userId updatedAt => exact (hmap _).trans ⟨Or.inl, fun h => h.resolve_right nofun⟩

private theorem holds_foldl (t : ConvTables) (sts : List ConvStmt) (id : Uuid) :
    (sts.foldl ConvStmt.apply t).Holds id ↔ t.Holds id ∨ id ∈ sts.filterMap ConvStmt.newId := by
  induction sts generalizing t with
  | nil => simp
  | cons st sts ih =>
    rw [List.foldl_cons, ih, holds_apply, or_assoc]
    refine or_congr_right ?_
    cases hst : st.newId with
    | none => rw [List.filterMap_cons_none hst]; simp
    | some id' => rw [List.filterMap_cons_some hst, List.mem_cons, Option.some.injEq]; simp [eq_comm]

section Ids

variable {u : Uuid} {pid : Nat} {ref : SessionRef} {w : ConvWorld}

private theorem unpair_uuid4 (u : Uuid) (w : ConvWorld) : Nat.unpair (w.uuid4 u) = (u, w.drawn u) := by
  simp [ConvWorld.uuid4]

private theorem not_drawn_uuid4 (u : Uuid) (w : ConvWorld) : ¬ w.Drawn (w.uuid4 u) := by
  simp [ConvWorld.Drawn, ownerOf, unpair_uuid4]

private theorem drawn_drew {id : Uuid} (h : w.Drawn id) : (w.drew u).Drawn id := by
  have hle : w.drawn (ownerOf id) ≤ (w.drew u).drawn (ownerOf id) := by
    simp only [ConvWorld.drew, Function.update_apply]
    split
    · rename_i hu
      exact hu ▸ Nat.le_succ _
    · exact le_rfl
  exact Nat.lt_of_lt_of_le h hle

private theorem drawn_uuid4 (u : Uuid) (w : ConvWorld) : (w.drew u).Drawn (w.uuid4 u) := by
  simp [ConvWorld.Drawn, ownerOf, unpair_uuid4, ConvWorld.drew]

/-- A session that inserts no further conversation. -/
private theorem ConvIds.setSession (h : ConvIds w) {s : ConvSession}
    (hnew : ∀ id ∈ s.newIds, id ∈ (w.sessions u pid ref).newIds) : ConvIds (w.setSession u pid ref s) := by
  have hsub : ∀ u' pid' ref', ∀ id ∈ ((w.setSession u pid ref s).sessions u' pid' ref').newIds,
      id ∈ (w.sessions u' pid' ref').newIds := by
    intro u' pid' ref' id hid
    rw [setSession_sessions] at hid
    split at hid
    · rename_i heq
      obtain ⟨rfl, rfl, rfl⟩ := heq
      exact hnew id hid
    · exact hid
  exact ⟨h.rows, fun u' pid' ref' id hid => h.pending u' pid' ref' id (hsub _ _ _ id hid),
    fun _ _ _ _ _ _ id hid hid' => h.once _ _ _ _ _ _ id (hsub _ _ _ id hid) (hsub _ _ _ id hid')⟩

private theorem ConvIds.drew (h : ConvIds w) : ConvIds (w.drew u) :=
  ⟨fun id hid => drawn_drew (h.rows id hid),
    fun u' pid' ref' id hid => ⟨drawn_drew (h.pending u' pid' ref' id hid).1, (h.pending u' pid' ref' id hid).2⟩,
    h.once⟩

/-- A session that inserts a conversation under a fresh id. -/
private theorem ConvIds.create (h : ConvIds w) {s : ConvSession}
    (hnew : s.newIds = (w.sessions u pid ref).newIds ++ [w.uuid4 u]) :
    ConvIds ((w.setSession u pid ref s).drew u) := by
  have hcases : ∀ u' pid' ref', ∀ id ∈ ((w.setSession u pid ref s).sessions u' pid' ref').newIds,
      id ∈ (w.sessions u' pid' ref').newIds ∨ (id = w.uuid4 u ∧ u' = u ∧ pid' = pid ∧ ref' = ref) := by
    intro u' pid' ref' id hid
    rw [setSession_sessions] at hid
    split at hid
    · rename_i heq
      obtain ⟨rfl, rfl, rfl⟩ := heq
      rw [hnew] at hid
      rcases List.mem_append.mp hid with hid | hid
      · exact Or.inl hid
      · exact Or.inr ⟨List.mem_singleton.mp hid, rfl, rfl, rfl⟩
    · exact Or.inl hid
  have hfresh : ∀ u' pid' ref', w.uuid4 u ∉ (w.sessions u' pid' ref').newIds :=
    fun u' pid' ref' hid => not_drawn_uuid4 u w (h.pending u' pid' ref' _ hid).1
  refine ⟨fun id hid => drawn_drew (h.rows id hid), fun u' pid' ref' id hid => ?_,
    fun u₁ pid₁ ref₁ u₂ pid₂ ref₂ id h₁ h₂ => ?_⟩
  · rcases hcases u' pid' ref' id hid with hid | ⟨rfl, -⟩
    · exact ⟨drawn_drew (h.pending u' pid' ref' id hid).1, (h.pending u' pid' ref' id hid).2⟩
    · exact ⟨drawn_uuid4 u w, fun hold => not_drawn_uuid4 u w (h.rows _ hold)⟩
  · rcases hcases _ _ _ id h₁ with h₁ | ⟨rfl, rfl, rfl, rfl⟩
    · rcases hcases _ _ _ id h₂ with h₂ | ⟨rfl, -⟩
      · exact h.once _ _ _ _ _ _ id h₁ h₂
      · exact absurd h₁ (hfresh _ _ _)
    · rcases hcases _ _ _ _ h₂ with h₂ | ⟨-, rfl, rfl, rfl⟩
      · exact absurd h₂ (hfresh _ _ _)
      · exact ⟨rfl, rfl, rfl⟩

private theorem ConvIds.commit (h : ConvIds w) {s : ConvSession} (hs : s.pending = []) :
    ConvIds (({ w with tables := w.visible u pid ref } : ConvWorld).setSession u pid ref s) := by
  have hcases : ∀ u' pid' ref', ∀ id ∈ ((({ w with tables := w.visible u pid ref } : ConvWorld).setSession u
      pid ref s).sessions u' pid' ref').newIds,
      id ∈ (w.sessions u' pid' ref').newIds ∧ ¬ (u' = u ∧ pid' = pid ∧ ref' = ref) := by
    intro u' pid' ref' id hid
    rw [setSession_sessions] at hid
    split at hid
    · simp [ConvSession.newIds, hs] at hid
    · exact ⟨hid, by assumption⟩
  refine ⟨fun id hid => ?_, fun u' pid' ref' id hid => ?_, fun _ _ _ _ _ _ id h₁ h₂ => ?_⟩
  · rcases (holds_foldl _ _ _).mp hid with hid | hid
    · exact h.rows id hid
    · exact (h.pending u pid ref id hid).1
  · obtain ⟨hid, hother⟩ := hcases u' pid' ref' id hid
    refine ⟨(h.pending u' pid' ref' id hid).1, fun hold => ?_⟩
    rcases (holds_foldl _ _ _).mp hold with hold | hold
    · exact (h.pending u' pid' ref' id hid).2 hold
    · exact hother (h.once _ _ _ _ _ _ id hold hid)
  · exact h.once _ _ _ _ _ _ id (hcases _ _ _ id h₁).1 (hcases _ _ _ id h₂).1

private theorem convReply_ids (h : ConvIds w) (o : ConvOp) : ConvIds (convReply u pid o w).2 := by
  cases o with
  | openSession ref => exact h.setSession nofun
  | create ref tenantId userId title =>
    refine h.create ?_
    simp only [ConvSession.newIds, ConvWorld.wrote, List.filterMap_append]
    rfl
  | get ref convId userId => exact h.setSession fun id hid => hid
  | listForUser ref userId limit offset => exact h.setSession fun id hid => hid
  | archive ref convId userId =>
    refine h.setSession fun id hid => ?_
    simpa [ConvSession.newIds, ConvWorld.wrote, ConvStmt.newId] using hid
  | addMessage ref m =>
    simp only [convReply]
    split
    · exact h.setSession fun id hid => hid
    · refine (h.setSession fun id hid => ?_).drew
      simpa [ConvSession.newIds, ConvStmt.newId] using hid
  | messages ref convId limit => exact h.setSession fun id hid => hid
  | commit ref => exact h.commit rfl

/-- A committed conversation stays. -/
private theorem convReply_holds {id : Uuid} (h : w.tables.Holds id) (o : ConvOp) :
    (convReply u pid o w).2.tables.Holds id := by
  by_cases ho : ∃ ref, o = .commit ref
  · obtain ⟨ref, rfl⟩ := ho
    exact (holds_foldl _ _ _).mpr (Or.inl h)
  · rw [convReply_tables fun ref heq => ho ⟨ref, heq⟩]
    exact h

end Ids

/-! ### A request that archives -/

/-- The conversation is archived, as far as it is one of the user. -/
def ConvTables.Archived (u id : Uuid) (t : ConvTables) : Prop :=
  ∀ c ∈ t.conversations, c.id = id → c.userId = u → c.archived = true

private theorem ConvStmt.update_archived {st : ConvStmt} {c : ConversationRow} (h : c.archived = true) :
    (st.update c).archived = true := by
  cases st with
  | insertConversation d => exact h
  | insertMessage m => exact h
  | updateCounters convId n at' updatedAt =>
    simp only [ConvStmt.update]
    split <;> exact h
  | setArchived convId userId updatedAt =>
    simp only [ConvStmt.update]
    split
    · rfl
    · exact h

private theorem ConvTables.Archived.apply {u id : Uuid} {t : ConvTables} (h : t.Archived u id) {st : ConvStmt}
    (hst : st.newId ≠ some id) : (st.apply t).Archived u id := by
  have hmap : ∀ st : ConvStmt, ∀ c ∈ t.conversations.map st.update, c.id = id → c.userId = u →
      c.archived = true := by
    intro st c hc hid hu
    obtain ⟨d, hd, rfl⟩ := List.mem_map.mp hc
    rw [ConvStmt.update_id] at hid
    rw [ConvStmt.update_userId] at hu
    exact ConvStmt.update_archived (h d hd hid hu)
  cases st with
  | insertConversation c =>
    intro d hd hid hu
    rcases List.mem_append.mp hd with hd | hd
    · exact h d hd hid hu
    · obtain rfl := List.mem_singleton.mp hd
      exact absurd (congrArg some hid) hst
  | insertMessage m => exact h
  | updateCounters convId n at' updatedAt => exact hmap _
  | setArchived convId userId updatedAt => exact hmap _

private theorem ConvTables.Archived.foldl {u id : Uuid} {sts : List ConvStmt} {t : ConvTables}
    (h : t.Archived u id) (hsts : id ∉ sts.filterMap ConvStmt.newId) :
    (sts.foldl ConvStmt.apply t).Archived u id := by
  induction sts generalizing t with
  | nil => exact h
  | cons st sts ih =>
    have hst : st.newId ≠ some id := fun heq => hsts (by rw [List.filterMap_cons_some heq]; simp)
    refine ih (h.apply hst) fun hmem => hsts ?_
    cases hnew : st.newId with
    | none => rwa [List.filterMap_cons_none hnew]
    | some id' => exact List.filterMap_cons_some hnew ▸ List.mem_cons_of_mem _ hmem

/-- The UPDATE of `archive`. -/
private theorem archived_setArchived (u id : Uuid) (at' : Nat) (t : ConvTables) :
    (ConvStmt.apply t (.setArchived id u at')).Archived u id := by
  intro c hc hid hu
  obtain ⟨d, hd, rfl⟩ := List.mem_map.mp hc
  rw [ConvStmt.update_id] at hid
  rw [ConvStmt.update_userId] at hu
  simp only [ConvStmt.update, hid, hu, and_self, if_true]

private theorem convIds_blank : ConvIds ConvWorld.blank := by
  refine ⟨?_, nofun, nofun⟩
  rintro id ⟨c, hc, -⟩
  cases hc

/-- The invariant: ids are drawn once, and the conversation has been committed. -/
structure CommittedConv (id : Uuid) (s : ConvState) : Prop where
  ids : ConvIds s.world
  held : s.world.tables.Holds id

section Runs

variable {u id : Uuid} {s s' : ConvState} {l : ConvLabel}

private theorem conv_step_ids (hi : ConvIds s.world) (h : convService.step s l = some s') :
    ConvIds s'.world := by
  rcases step_cases h with ⟨pid, r, rfl, -, rfl⟩ | ⟨pid, out, r, o, k, rfl, -, rfl⟩ | ⟨⟨⟩, w, rfl, hw, rfl⟩
  · exact hi
  · rw [resume_world]
    rcases Outcome.world_eq (convService.handle pid r) o s.world out with heq | heq
    · rw [heq]
      exact hi
    · rw [heq]
      exact convReply_ids hi o
  · obtain rfl := Option.some.inj hw
    exact ⟨hi.rows, hi.pending, hi.once⟩

private theorem CommittedConv.step (hi : CommittedConv id s) (h : convService.step s l = some s') :
    CommittedConv id s' := by
  refine ⟨conv_step_ids hi.ids h, ?_⟩
  rcases step_cases h with ⟨pid, r, rfl, -, rfl⟩ | ⟨pid, out, r, o, k, rfl, -, rfl⟩ | ⟨⟨⟩, w, rfl, hw, rfl⟩
  · exact hi.held
  · rw [resume_world]
    rcases Outcome.world_eq (convService.handle pid r) o s.world out with heq | heq
    · rw [heq]
      exact hi.held
    · rw [heq]
      exact convReply_holds hi.held o
  · obtain rfl := Option.some.inj hw
    exact hi.held

/-- What is archived stays so. -/
private theorem convReply_archived {w : ConvWorld} (hi : ConvIds w) (hheld : w.tables.Holds id)
    (ha : w.tables.Archived u id) {v : Uuid} {pid : Nat} (o : ConvOp) :
    (convReply v pid o w).2.tables.Archived u id := by
  by_cases ho : ∃ ref, o = .commit ref
  · obtain ⟨ref, rfl⟩ := ho
    exact ha.foldl fun hmem => (hi.pending v pid ref id hmem).2 hheld
  · rw [convReply_tables fun ref heq => ho ⟨ref, heq⟩]
    exact ha

private theorem archived_step (hi : CommittedConv id s) (ha : s.world.tables.Archived u id)
    (h : convService.step s l = some s') : s'.world.tables.Archived u id := by
  rcases step_cases h with ⟨pid, r, rfl, -, rfl⟩ | ⟨pid, out, r, o, k, rfl, -, rfl⟩ | ⟨⟨⟩, w, rfl, hw, rfl⟩
  · exact ha
  · rw [resume_world]
    rcases Outcome.world_eq (convService.handle pid r) o s.world out with heq | heq
    · rw [heq]
      exact ha
    · rw [heq]
      exact convReply_archived hi.ids hi.held ha o
  · obtain rfl := Option.some.inj hw
    exact ha

end Runs

/-- What is left of `archive_conversation`. -/
inductive ArchiveStage (u id : Uuid) (pid : Nat) (w : ConvWorld) : ConvProg ConvReply → Prop
  | new {p : ConvProg ConvReply} (hp : p = (ConvRequest.archive u id).program) : ArchiveStage u id pid w p
  | opened : ArchiveStage u id pid w (.call (.archive .request id u) (Prog.cont fun _ =>
        .call (.commit .request) (Prog.cont fun _ => .done (.ok .archived))))
  | marked (sts : List ConvStmt) (at' : Nat)
      (pending : (w.sessions u pid .request).pending = sts ++ [.setArchived id u at']) :
      ArchiveStage u id pid w (.call (.commit .request) (Prog.cont fun _ => .done (.ok .archived)))
  | failed (e : ApiErr) : ArchiveStage u id pid w (.done (.error e))
  | ended (archived : w.tables.Archived u id) : ArchiveStage u id pid w (.done (.ok .archived))

private theorem archive_program (u id : Uuid) :
    (ConvRequest.archive u id).program = .call (.openSession .request) (Prog.cont fun _ =>
        .call (.archive .request id u) (Prog.cont fun _ =>
          .call (.commit .request) (Prog.cont fun _ => .done (.ok .archived)))) := by
  refine congrArg (Prog.call _) (funext fun r => ?_)
  cases r with
  | error e => rfl
  | ok a =>
    refine congrArg (Prog.call _) (funext fun r => ?_)
    cases r with
    | error e => rfl
    | ok a => exact congrArg (Prog.call _) (funext fun r => by cases r <;> rfl)

section Stage

variable {u id : Uuid} {pid : Nat} {w : ConvWorld}

private theorem ArchiveStage.call {o : ConvOp} {k : Except ApiErr (ConvOp.Resp o) → ConvProg ConvReply}
    (h : ArchiveStage u id pid w (.call o k)) {out : Outcome ApiErr}
    {rep : Except ApiErr (ConvOp.Resp o)} (hrep : out.reply (convReply u pid) o w = some rep) :
    ArchiveStage u id pid (out.world (convReply u pid) o w) (k rep) := by
  cases h with
  | new hp =>
    rw [archive_program] at hp
    cases hp
    cases rep with
    | error e => exact .failed e
    | ok a => exact .opened
  | opened =>
    cases rep with
    | error e => exact .failed e
    | ok a =>
      cases out with
      | ok =>
        refine .marked (w.sessions u pid .request).pending (w.now u pid .request) ?_
        show ((w.setSession u pid .request _).sessions u pid .request).pending = _
        rw [setSession_sessions, if_pos ⟨rfl, rfl, rfl⟩]
        rfl
      | raised e applied => cases hrep
      | crashed applied => cases hrep
  | marked sts at' hpending =>
    cases rep with
    | error e => exact .failed e
    | ok a =>
      cases out with
      | ok =>
        refine .ended ?_
        show (w.visible u pid .request).Archived u id
        rw [ConvWorld.visible, hpending, List.foldl_append]
        exact archived_setArchived u id at' _
      | raised e applied => cases hrep
      | crashed applied => cases hrep

/-- The steps of others leave it where it is. -/
private theorem ArchiveStage.other {p : ConvProg ConvReply} {w' : ConvWorld}
    (hsame : w'.sessions u pid = w.sessions u pid)
    (harchived : w.tables.Archived u id → w'.tables.Archived u id) (h : ArchiveStage u id pid w p) :
    ArchiveStage u id pid w' p := by
  cases h with
  | new hp => exact .new hp
  | opened => exact .opened
  | marked sts at' hpending => exact .marked sts at' (hsame ▸ hpending)
  | failed e => exact .failed e
  | ended ha => exact .ended (harchived ha)

private theorem ArchiveStage.returned (h : ArchiveStage u id pid w (.done (.ok .archived))) :
    w.tables.Archived u id := by
  cases h with
  | new hp =>
    rw [archive_program] at hp
    cases hp
  | ended ha => exact ha

end Stage

/-- When `archive_conversation` has returned, the conversation is archived. -/
private theorem archived_of_returned {u id : Uuid} {s s' : ConvState} {ls : List ConvLabel}
    (hi : CommittedConv id s) (hr : convService.run s ls = some s') {pid : Nat} (hnew : s.procs pid = none)
    (hdone : s'.procs pid = some ⟨.archive u id, .done (.ok .archived)⟩) :
    CommittedConv id s' ∧ s'.world.tables.Archived u id := by
  let G : ConvRequest → ConvProg ConvReply → ConvWorld → Prop := fun r p w =>
    r = .archive u id → ArchiveStage u id pid w p
  obtain ⟨hi', hwatch⟩ : CommittedConv id s' ∧ s'.Watched G pid := by
    have hstep : ∀ s l s', CommittedConv id s → True → convService.step s l = some s' → CommittedConv id s' :=
      fun _ _ _ hi _ => hi.step
    refine watch_run hstep ?_ ?_ ?_ hi (watched_of_none hnew) (meets_true _ _) hr
    · rintro s r _ rfl
      exact .new rfl
    · rintro s r o k out rep _ _ _ hg hrep rfl
      exact (hg rfl).call hrep
    · rintro s l s' p hs _ hstep hne _ hg hreq
      exact (hg hreq).other (conv_step_sessions hne hstep) fun ha => archived_step hs ha hstep
  exact ⟨hi', (hwatch _ hdone rfl).returned⟩

/-- Once a request that archives a committed conversation of a user has returned, the conversation stays
archived, and no list that the user asks for from then on shows it, whatever turns, lists and other
requests were going on. -/
theorem archived_for_good {u id : Uuid} {ls₀ ls₁ ls₂ : List ConvLabel} {s s₁ s₂ : ConvState}
    (hreach : convService.run (idle ConvWorld.blank) ls₀ = some s) (hheld : s.world.tables.Holds id)
    {pid : Nat} (hnew : s.procs pid = none) (hr₁ : convService.run s ls₁ = some s₁)
    (hdone : s₁.procs pid = some ⟨.archive u id, .done (.ok .archived)⟩)
    (hr₂ : convService.run s₁ ls₂ = some s₂) :
    s₂.world.tables.Archived u id ∧
      ∀ q limit offset cs, s₁.procs q = none →
        s₂.procs q = some ⟨.list u limit offset, .done (.ok (.conversations cs))⟩ → ∀ c ∈ cs, c.id ≠ id := by
  have hids : ConvIds s.world :=
    run_keeps (fun s => ConvIds s.world) (fun _ _ _ => conv_step_ids) convIds_blank hreach
  have harchived := archived_of_returned ⟨hids, hheld⟩ hr₁ hnew hdone
  have hkeep : ∀ t l t', (CommittedConv id t ∧ t.world.tables.Archived u id) → convService.step t l = some t' →
      CommittedConv id t' ∧ t'.world.tables.Archived u id :=
    fun t l t' ht hstep => ⟨ht.1.step hstep, archived_step ht.1 ht.2 hstep⟩
  have hpages : ∀ t (limit offset : Int), (CommittedConv id t ∧ t.world.tables.Archived u id) →
      ∀ c ∈ pageRows u limit offset t.world.tables, c.id ≠ id := by
    intro t limit offset ht row hrow hid
    have hmem := List.mem_of_mem_drop (List.mem_of_mem_take hrow)
    obtain ⟨hrow, hopen⟩ := List.mem_filter.mp ((listedRows_spec u t.world.tables).1.mem_iff.mp hmem)
    have huser : row.userId = u ∧ ¬ row.archived = true := by simpa using hopen
    exact huser.2 (ht.2 row hrow hid huser.1)
  refine ⟨(run_keeps _ hkeep harchived hr₂).2, fun q limit offset cs hq hlist c hc hid => ?_⟩
  obtain ⟨items, hgood, rfl⟩ := listed_good (P := fun _ _ items => ∀ c ∈ items, c.id ≠ id)
    (fun t l t' ht _ => hkeep t l t' ht) hpages harchived (meets_true _ _) hr₂ hq hlist
  obtain ⟨row, hrow, rfl⟩ := List.mem_map.mp hc
  exact hgood row hrow hid

/-- A user makes a conversation. -/
def archiveBefore : List ConvLabel := .start 0 (.create 1 7 none) :: List.replicate 3 (.call 0 .ok)

/-- A turn stores its question, and the conversation is archived before it has its answer. -/
def archiveDuring : List ConvLabel :=
  .start 1 (.chat ⟨Nat.pair 1 0, 1, 7, "q"⟩ (some ⟨"a", [], none, none⟩)) ::
    List.replicate 4 (.call 1 .ok) ++ .start 2 (.archive 1 (Nat.pair 1 0)) :: List.replicate 3 (.call 2 .ok)

/-- The turn goes on, and the user asks for the list. -/
def archiveAfter : List ConvLabel :=
  List.replicate 3 (.call 1 .ok) ++ [.start 3 (.list 1 50 0), .call 3 .ok, .call 3 .ok]

theorem archived_for_good_turn :
    ∃ s s₁ s₂, convService.run (idle ConvWorld.blank) archiveBefore = some s ∧
      convService.run s archiveDuring = some s₁ ∧ convService.run s₁ archiveAfter = some s₂ ∧
      s₂.world.tables.Archived 1 (Nat.pair 1 0) := by
  obtain ⟨s, s₁, s₂, hs, hs₁, hs₂, hheld, hnew, hdone⟩ : ∃ s s₁ s₂,
      convService.run (idle ConvWorld.blank) archiveBefore = some s ∧
      convService.run s archiveDuring = some s₁ ∧ convService.run s₁ archiveAfter = some s₂ ∧
      s.world.tables.conversations.map (·.id) = [Nat.pair 1 0] ∧ s.procs 2 = none ∧
      s₁.procs 2 = some ⟨.archive 1 (Nat.pair 1 0), .done (.ok .archived)⟩ :=
    ⟨_, _, _, rfl, rfl, rfl, rfl, rfl, rfl⟩
  have hmem : Nat.pair 1 0 ∈ s.world.tables.conversations.map (·.id) := hheld ▸ List.mem_singleton_self _
  obtain ⟨c, hc, hid⟩ := List.mem_map.mp hmem
  exact ⟨s, s₁, s₂, hs, hs₁, hs₂, (archived_for_good hs ⟨c, hc, hid⟩ hnew hs₁ hdone hs₂).1⟩

end LegalRag
