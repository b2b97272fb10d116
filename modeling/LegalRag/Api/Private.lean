import LegalRag.Api.Conversations
import LegalRag.Calls.Projection

/-!
# Conversations are private

Every row belongs to the user from whose supply its id is drawn (`ConvOwned`), and a request reads and
writes the rows of its own user only.  So the requests of one user can be run without those of the others:
they return the same, and leave the same rows (`conversations_private`).
-/

namespace LegalRag

open Calls Service

/-- The user from whose supply an id is drawn. -/
def ownerOf (id : Uuid) : Uuid := (Nat.unpair id).1

private theorem ownerOf_uuid4 (u : Uuid) (w : ConvWorld) : ownerOf (w.uuid4 u) = u := by
  simp [ownerOf, ConvWorld.uuid4]

/-- The rows of a user. -/
def ConvTables.only (u : Uuid) (t : ConvTables) : ConvTables where
  conversations := t.conversations.filter fun c => ownerOf c.id = u
  messages := t.messages.filter fun m => ownerOf m.conversationId = u

/-- What there is of a user. -/
def ConvWorld.only (u : Uuid) (w : ConvWorld) : ConvWorld where
  tables := w.tables.only u
  sessions := Function.update (fun _ _ _ => .fresh) u (w.sessions u)
  drawn := Function.update (fun _ => 0) u (w.drawn u)
  clock := w.clock

/-- A statement writes rows of the user only. -/
def ConvStmt.Owned (u : Uuid) : ConvStmt → Prop
  | .insertConversation c => ownerOf c.id = u ∧ c.userId = u
  | .insertMessage m => ownerOf m.conversationId = u
  | .updateCounters convId .. => ownerOf convId = u
  | .setArchived _ userId _ => userId = u

/-- Every row belongs to the user from whose supply its id is drawn. -/
def ConvTables.Owned (t : ConvTables) : Prop := ∀ c ∈ t.conversations, ownerOf c.id = c.userId

/-- Everything belongs to the user of the request that has read or written it. -/
structure ConvOwned (w : ConvWorld) : Prop where
  rows : w.tables.Owned
  loaded : ∀ u pid ref, ∀ c ∈ (w.sessions u pid ref).loaded, ownerOf c.id = u
  pending : ∀ u pid ref, ∀ st ∈ (w.sessions u pid ref).pending, st.Owned u

/-- The statements that a request of `u` makes. -/
def OwnStatement (u : Uuid) : ConvOp → Prop
  | .create _ _ userId _ | .get _ _ userId | .listForUser _ userId .. | .archive _ _ userId => userId = u
  | .addMessage _ m => ownerOf m.conversationId = u
  | .messages _ convId _ => ownerOf convId = u
  | .openSession _ | .commit _ => True

/-- A conversation is found by its owner only. -/
def FoundByOwner : (o : ConvOp) → ConvCalls.Resp o → Prop
  | .get _ convId userId, found => found.isSome → ownerOf convId = userId
  | _, _ => True

/-! ### Statements -/

@[simp] theorem ConvStmt.update_id (st : ConvStmt) (c : ConversationRow) : (st.update c).id = c.id := by
  cases st <;> simp only [ConvStmt.update] <;> split <;> rfl

@[simp] theorem ConvStmt.update_userId (st : ConvStmt) (c : ConversationRow) :
    (st.update c).userId = c.userId := by
  cases st <;> simp only [ConvStmt.update] <;> split <;> rfl

private theorem ConvTables.Owned.apply {t : ConvTables} (h : t.Owned) {u : Uuid} {st : ConvStmt}
    (hst : st.Owned u) : (st.apply t).Owned := by
  intro c hc
  cases st with
  | insertConversation row =>
    rcases List.mem_append.mp hc with hc | hc
    · exact h c hc
    · obtain rfl := List.mem_singleton.mp hc
      exact hst.1.trans hst.2.symm
  | insertMessage m => exact h c hc
  | updateCounters convId n at' updatedAt =>
    obtain ⟨d, hd, rfl⟩ := List.mem_map.mp hc
    rw [ConvStmt.update_id, ConvStmt.update_userId]
    exact h d hd
  | setArchived convId userId updatedAt =>
    obtain ⟨d, hd, rfl⟩ := List.mem_map.mp hc
    rw [ConvStmt.update_id, ConvStmt.update_userId]
    exact h d hd

/-- The rows of a user after an UPDATE. -/
private theorem only_map_update (u : Uuid) (st : ConvStmt) (rows : List ConversationRow) :
    (rows.map st.update).filter (fun c => ownerOf c.id = u) =
      (rows.filter fun c => ownerOf c.id = u).map st.update := by
  rw [List.filter_map]
  congr 1
  refine List.filter_congr fun c _ => ?_
  simp only [Function.comp_apply, ConvStmt.update_id]

/-- A statement of the user does to its rows what it does to the tables. -/
private theorem only_apply {u : Uuid} {st : ConvStmt} (hst : st.Owned u) (t : ConvTables) :
    (st.apply t).only u = st.apply (t.only u) := by
  cases st with
  | insertConversation c =>
    simp only [ConvStmt.apply, ConvTables.only, List.filter_append]
    rw [List.filter_cons_of_pos (by simpa using hst.1), List.filter_nil]
  | insertMessage m =>
    have howner : ownerOf m.conversationId = u := hst
    simp only [ConvStmt.apply, ConvTables.only, List.filter_append]
    rw [List.filter_cons_of_pos (by simpa using howner), List.filter_nil]
  | updateCounters convId n at' updatedAt =>
    simp only [ConvStmt.apply, ConvTables.only, only_map_update]
  | setArchived convId userId updatedAt =>
    simp only [ConvStmt.apply, ConvTables.only, only_map_update]

/-- A statement of another user leaves the rows alone. -/
private theorem only_apply_other {u v : Uuid} (hne : v ≠ u) {st : ConvStmt} (hst : st.Owned v)
    {t : ConvTables} (ht : t.Owned) : (st.apply t).only u = t.only u := by
  have hmap : ∀ st : ConvStmt, (∀ c ∈ t.conversations, ownerOf c.id = u → st.update c = c) →
      (t.conversations.map st.update).filter (fun c => ownerOf c.id = u) =
        t.conversations.filter fun c => ownerOf c.id = u := by
    intro st hsame
    rw [only_map_update]
    refine (List.map_congr_left fun c hc => ?_).trans (List.map_id _)
    obtain ⟨hc, hown⟩ := List.mem_filter.mp hc
    exact hsame c hc (by simpa using hown)
  cases st with
  | insertConversation c =>
    simp only [ConvStmt.apply, ConvTables.only, List.filter_append]
    rw [List.filter_cons_of_neg (by simpa [hst.1] using hne), List.filter_nil, List.append_nil]
  | insertMessage m =>
    have howner : ownerOf m.conversationId = v := hst
    simp only [ConvStmt.apply, ConvTables.only, List.filter_append]
    rw [List.filter_cons_of_neg (by simpa [howner] using hne), List.filter_nil, List.append_nil]
  | updateCounters convId n at' updatedAt =>
    simp only [ConvStmt.apply, ConvTables.only]
    rw [hmap]
    intro c _ hown
    have hid : c.id ≠ convId := by
      rintro rfl
      exact hne (Eq.trans (Eq.symm hst) hown)
    simp only [ConvStmt.update, if_neg hid]
  | setArchived convId userId updatedAt =>
    simp only [ConvStmt.apply, ConvTables.only]
    rw [hmap]
    intro c hc hown
    have huser : ¬ (c.id = convId ∧ c.userId = userId) := by
      rintro ⟨-, heq⟩
      exact hne (Eq.trans (Eq.symm hst) (heq.symm.trans ((ht c hc).symm.trans hown)))
    simp only [ConvStmt.update, if_neg huser]

private theorem owned_foldl {u : Uuid} {sts : List ConvStmt} (hsts : ∀ st ∈ sts, st.Owned u) {t : ConvTables}
    (ht : t.Owned) : (sts.foldl ConvStmt.apply t).Owned := by
  induction sts generalizing t with
  | nil => exact ht
  | cons st sts ih =>
    exact ih (fun st' h => hsts st' (List.mem_cons_of_mem st h)) (ht.apply (hsts st (List.mem_cons_self ..)))

private theorem only_foldl {u : Uuid} {sts : List ConvStmt} (hsts : ∀ st ∈ sts, st.Owned u) (t : ConvTables) :
    (sts.foldl ConvStmt.apply t).only u = sts.foldl ConvStmt.apply (t.only u) := by
  induction sts generalizing t with
  | nil => rfl
  | cons st sts ih =>
    rw [List.foldl_cons, List.foldl_cons, ih (fun st' h => hsts st' (List.mem_cons_of_mem st h)),
      only_apply (hsts st (List.mem_cons_self ..))]

private theorem only_foldl_other {u v : Uuid} (hne : v ≠ u) {sts : List ConvStmt}
    (hsts : ∀ st ∈ sts, st.Owned v) {t : ConvTables} (ht : t.Owned) :
    (sts.foldl ConvStmt.apply t).only u = t.only u := by
  induction sts generalizing t with
  | nil => rfl
  | cons st sts ih =>
    have hst := hsts st (List.mem_cons_self ..)
    rw [List.foldl_cons, ih (fun st' h => hsts st' (List.mem_cons_of_mem st h)) (ht.apply hst),
      only_apply_other hne hst ht]

/-! ### Sessions -/

section World

variable {u v : Uuid} {pid : Nat} {ref : SessionRef} {w : ConvWorld}

@[simp] theorem only_sessions (w : ConvWorld) : (w.only u).sessions u = w.sessions u := by
  simp [ConvWorld.only]

@[simp] theorem only_now (w : ConvWorld) : (w.only u).now u pid ref = w.now u pid ref := by
  simp [ConvWorld.now]
  rfl

@[simp] theorem only_touched (w : ConvWorld) : (w.only u).touched u pid ref = w.touched u pid ref := by
  simp [ConvWorld.touched]

@[simp] theorem only_wrote (w : ConvWorld) (st : ConvStmt) :
    (w.only u).wrote u pid ref st = w.wrote u pid ref st := by
  simp [ConvWorld.wrote]

@[simp] theorem only_uuid4 (w : ConvWorld) : (w.only u).uuid4 u = w.uuid4 u := by
  simp [ConvWorld.uuid4, ConvWorld.only]

private theorem only_setSession (w : ConvWorld) (s : ConvSession) :
    (w.setSession u pid ref s).only u = (w.only u).setSession u pid ref s := by
  simp [ConvWorld.setSession, ConvWorld.only]

private theorem only_setSession_other (hne : v ≠ u) (w : ConvWorld) (s : ConvSession) :
    (w.setSession v pid ref s).only u = w.only u := by
  simp [ConvWorld.setSession, ConvWorld.only, Function.update_of_ne (Ne.symm hne)]

private theorem only_drew (w : ConvWorld) : (w.drew u).only u = (w.only u).drew u := by
  simp [ConvWorld.drew, ConvWorld.only]

private theorem only_drew_other (hne : v ≠ u) (w : ConvWorld) : (w.drew v).only u = w.only u := by
  simp [ConvWorld.drew, ConvWorld.only, Function.update_of_ne (Ne.symm hne)]

/-- The sessions after one of them has changed. -/
theorem setSession_sessions (w : ConvWorld) (s : ConvSession) (u' : Uuid) (pid' : Nat) (ref' : SessionRef) :
    (w.setSession u pid ref s).sessions u' pid' ref' =
      if u' = u ∧ pid' = pid ∧ ref' = ref then s else w.sessions u' pid' ref' := by
  simp only [ConvWorld.setSession, Function.update_apply]
  by_cases hu : u' = u
  · subst hu
    by_cases hpid : pid' = pid
    · subst hpid
      by_cases href : ref' = ref <;> simp [href]
    · simp [hpid]
  · simp [hu]

private theorem ConvOwned.visible (h : ConvOwned w) : (w.visible u pid ref).Owned :=
  owned_foldl (h.pending u pid ref) h.rows

private theorem only_visible (h : ConvOwned w) :
    (w.only u).visible u pid ref = (w.visible u pid ref).only u := by
  simp only [ConvWorld.visible, only_sessions]
  exact (only_foldl (h.pending u pid ref) w.tables).symm

/-- A session whose rows and statements belong to its user. -/
private theorem ConvOwned.setSession (h : ConvOwned w) {s : ConvSession}
    (hloaded : ∀ c ∈ s.loaded, ownerOf c.id = u) (hpending : ∀ st ∈ s.pending, st.Owned u) :
    ConvOwned (w.setSession u pid ref s) := by
  refine ⟨h.rows, fun u' pid' ref' => ?_, fun u' pid' ref' => ?_⟩
  · rw [setSession_sessions]
    split
    · rename_i heq
      exact heq.1 ▸ hloaded
    · exact h.loaded u' pid' ref'
  · rw [setSession_sessions]
    split
    · rename_i heq
      exact heq.1 ▸ hpending
    · exact h.pending u' pid' ref'

private theorem ConvOwned.wrote (h : ConvOwned w) {st : ConvStmt} (hst : st.Owned u) :
    ConvOwned (w.setSession u pid ref (w.wrote u pid ref st)) := by
  refine h.setSession (h.loaded u pid ref) fun st' hst' => ?_
  rcases List.mem_append.mp hst' with hst' | hst'
  · exact h.pending u pid ref st' hst'
  · obtain rfl := List.mem_singleton.mp hst'
    exact hst

private theorem ConvOwned.touched (h : ConvOwned w) :
    ConvOwned (w.setSession u pid ref (w.touched u pid ref)) :=
  h.setSession (h.loaded u pid ref) (h.pending u pid ref)

/-- The row that `add_message` counts in is one of the user. -/
private theorem lookup_id {convId : Uuid} {c : ConversationRow} (h : w.lookup u pid ref convId = some c) :
    c.id = convId := by
  rcases Option.or_eq_some_iff.mp h with h | ⟨-, h⟩
  · simpa using List.find?_some h
  · simpa using List.find?_some h

/-- A statement keeps everything with its owner, and finds what it finds for the owner. -/
private theorem convReply_owned (h : ConvOwned w) {o : ConvOp} (ho : OwnStatement u o) :
    ConvOwned (convReply u pid o w).2 ∧ ∀ a, (convReply u pid o w).1 = .ok a → FoundByOwner o a := by
  cases o with
  | openSession ref => exact ⟨h.setSession nofun nofun, fun _ _ => trivial⟩
  | create ref tenantId userId title =>
    have hst : (ConvStmt.insertConversation
      { id := w.uuid4 u, userId := userId, summary := none, messageCount := 0, tenantId := tenantId,
        title := title, archived := false, lastMessageAt := none, createdAt := w.now u pid ref,
        updatedAt := w.now u pid ref }).Owned u := ⟨ownerOf_uuid4 u w, ho⟩
    have howned : ConvOwned (w.setSession u pid ref (w.wrote u pid ref _)) := h.wrote hst
    exact ⟨⟨howned.rows, howned.loaded, howned.pending⟩, fun _ _ => trivial⟩
  | get ref convId userId =>
    obtain rfl : userId = u := ho
    have hfound : ∀ c, (w.visible userId pid ref).conversations.find?
        (fun c => c.id = convId ∧ c.userId = userId) = some c → ownerOf c.id = userId ∧ c.id = convId := by
      intro c hc
      have hp : c.id = convId ∧ c.userId = userId := by simpa using List.find?_some hc
      exact ⟨(h.visible c (List.mem_of_find?_eq_some hc)).trans hp.2, hp.1⟩
    refine ⟨h.setSession (fun c hc => ?_) (h.pending userId pid ref), fun a ha hsome => ?_⟩
    · rcases List.mem_append.mp hc with hc | hc
      · exact h.loaded userId pid ref c hc
      · exact (hfound c (Option.mem_toList.mp hc)).1
    · obtain rfl := Except.ok.inj ha
      obtain ⟨c, hc⟩ := Option.isSome_iff_exists.mp hsome
      obtain ⟨howner, hid⟩ := hfound c hc
      exact hid ▸ howner
  | listForUser ref userId limit offset => exact ⟨h.touched, fun _ _ => trivial⟩
  | archive ref convId userId => exact ⟨h.wrote ho, fun _ _ => trivial⟩
  | addMessage ref m =>
    refine ⟨?_, fun _ _ => trivial⟩
    simp only [convReply]
    split
    · exact h.touched
    · rename_i c hc
      have hid : c.id = m.conversationId := lookup_id hc
      have howner : ownerOf c.id = u := hid ▸ ho
      have howned : ConvOwned (w.setSession u pid ref { w.touched u pid ref with
          loaded := (w.sessions u pid ref).loaded.filter (·.id ≠ c.id) ++
            [(ConvStmt.updateCounters c.id (c.messageCount + 1) w.clock (w.now u pid ref)).update c]
          pending := (w.sessions u pid ref).pending ++ [.insertMessage { m with
            id := w.uuid4 u, createdAt := w.now u pid ref },
            .updateCounters c.id (c.messageCount + 1) w.clock (w.now u pid ref)] }) := by
        refine h.setSession (fun d hd => ?_) fun st hst => ?_
        · rcases List.mem_append.mp hd with hd | hd
          · exact h.loaded u pid ref d (List.mem_filter.mp hd).1
          · obtain rfl := List.mem_singleton.mp hd
            rw [ConvStmt.update_id]
            exact howner
        · rcases List.mem_append.mp hst with hst | hst
          · exact h.pending u pid ref st hst
          · simp only [List.mem_cons, List.not_mem_nil, or_false] at hst
            rcases hst with rfl | rfl
            · exact ho
            · exact howner
      exact ⟨howned.rows, howned.loaded, howned.pending⟩
  | messages ref convId limit => exact ⟨h.touched, fun _ _ => trivial⟩
  | commit ref =>
    have hw : ConvOwned { w with tables := w.visible u pid ref } := ⟨h.visible, h.loaded, h.pending⟩
    exact ⟨hw.setSession (h.loaded u pid ref) nofun, fun _ _ => trivial⟩

/-- A lookup among the rows of the user. -/
private theorem find?_only {α : Type} {p q : α → Bool} {xs : List α} (h : ∀ x ∈ xs, p x = true → q x = true) :
    (xs.filter q).find? p = xs.find? p := by
  induction xs with
  | nil => rfl
  | cons x xs ih =>
    have ih := ih fun y hy => h y (List.mem_cons_of_mem x hy)
    cases hp : p x with
    | true => rw [List.filter_cons_of_pos (h x (List.mem_cons_self ..) hp), List.find?_cons_of_pos hp,
        List.find?_cons_of_pos hp]
    | false =>
      rw [List.find?_cons_of_neg (by simp [hp]), List.filter_cons]
      split
      · rw [List.find?_cons_of_neg (by simp [hp]), ih]
      · exact ih

theorem filter_only {α : Type} {p q : α → Bool} {xs : List α} (h : ∀ x ∈ xs, p x = true → q x = true) :
    (xs.filter q).filter p = xs.filter p := by
  rw [List.filter_filter]
  refine List.filter_congr fun x hx => ?_
  cases hp : p x with
  | false => simp
  | true => simp [h x hx hp]

/-- A request of the user does to what there is of the user what it does to everything. -/
private theorem convReply_only (h : ConvOwned w) {o : ConvOp} (ho : OwnStatement u o) :
    (convReply u pid o (w.only u)).1 = (convReply u pid o w).1 ∧
      (convReply u pid o (w.only u)).2 = (convReply u pid o w).2.only u := by
  cases o with
  | openSession ref => exact ⟨rfl, (only_setSession w _).symm⟩
  | create ref tenantId userId title =>
    simp only [convReply, only_now, only_uuid4, only_wrote, only_drew, only_setSession, true_and]
  | get ref convId userId =>
    obtain rfl : userId = u := ho
    have hfind : ((w.visible userId pid ref).only userId).conversations.find?
        (fun c => c.id = convId ∧ c.userId = userId) = (w.visible userId pid ref).conversations.find?
        fun c => c.id = convId ∧ c.userId = userId := by
      refine find?_only fun c hc hp => ?_
      have huser : c.id = convId ∧ c.userId = userId := by simpa using hp
      simpa using (h.visible c hc).trans huser.2
    simp only [convReply, only_visible h, hfind, only_touched, only_sessions, only_setSession, true_and]
  | listForUser ref userId limit offset =>
    obtain rfl : userId = u := ho
    have hfilter : ((w.visible userId pid ref).only userId).conversations.filter
        (fun c => c.userId = userId ∧ ¬ c.archived) = (w.visible userId pid ref).conversations.filter
        fun c => c.userId = userId ∧ ¬ c.archived := by
      refine filter_only fun c hc hp => ?_
      have huser : c.userId = userId ∧ ¬ c.archived := by simpa using hp
      simpa using (h.visible c hc).trans huser.1
    simp only [convReply, only_visible h, listedRows, hfilter, only_touched, only_setSession, true_and]
  | archive ref convId userId =>
    simp only [convReply, only_now, only_wrote, only_setSession, true_and]
  | addMessage ref m =>
    have hlookup : (w.only u).lookup u pid ref m.conversationId = w.lookup u pid ref m.conversationId := by
      simp only [ConvWorld.lookup, only_sessions, only_visible h]
      congr 1
      refine find?_only fun c _ hp => ?_
      have hid : c.id = m.conversationId := by simpa using hp
      have howner : ownerOf m.conversationId = u := ho
      simpa [hid] using howner
    simp only [convReply, hlookup]
    split
    · simp only [only_touched, only_setSession, true_and]
    · simp only [only_now, only_uuid4, only_touched, only_sessions, only_drew, only_setSession]
      exact ⟨trivial, rfl⟩
  | messages ref convId limit =>
    have hfilter : ((w.visible u pid ref).only u).messages.filter (·.conversationId = convId) =
        (w.visible u pid ref).messages.filter (·.conversationId = convId) := by
      refine filter_only fun m _ hp => ?_
      have hid : m.conversationId = convId := by simpa using hp
      have howner : ownerOf convId = u := ho
      simpa [hid] using howner
    simp only [convReply, only_visible h, hfilter, only_touched, only_setSession, true_and]
  | commit ref =>
    refine ⟨rfl, ?_⟩
    simp only [convReply, only_setSession, only_sessions, only_visible h]
    rfl

/-- A request of another user does nothing to what there is of the user. -/
theorem convReply_only_other (h : ConvOwned w) (hne : v ≠ u) (o : ConvOp) :
    (convReply v pid o w).2.only u = w.only u := by
  cases o with
  | create ref tenantId userId title => simp only [convReply, only_drew_other hne, only_setSession_other hne]
  | addMessage ref m =>
    simp only [convReply]
    split
    · exact only_setSession_other hne w _
    · simp only [only_drew_other hne, only_setSession_other hne]
  | commit ref =>
    simp only [convReply, only_setSession_other hne]
    have htables : (w.visible v pid ref).only u = w.tables.only u :=
      only_foldl_other hne (h.pending v pid ref) h.rows
    simp only [ConvWorld.only, htables]
  | openSession ref => exact only_setSession_other hne w _
  | get ref convId userId => exact only_setSession_other hne w _
  | listForUser ref userId limit offset => exact only_setSession_other hne w _
  | archive ref convId userId => exact only_setSession_other hne w _
  | messages ref convId limit => exact only_setSession_other hne w _

end World

/-! ### Requests -/

section Programs

variable {α β : Type} {u : Uuid}

/-- A statement of the user, and what comes after it. -/
private theorem follows_conv {o : ConvOp} {f : ConvOp.Resp o → ConvProg β} (ho : OwnStatement u o)
    (hf : ∀ a, FoundByOwner o a → (f a).Follows FoundByOwner (OwnStatement u) fun _ => True) :
    (conv o >>= f).Follows FoundByOwner (OwnStatement u) fun _ => True :=
  Prog.follows_bind ((Prog.follows_perform ho).mono hf)

private theorem follows_map {p : ConvProg α} {f : α → β}
    (hp : p.Follows FoundByOwner (OwnStatement u) fun _ => True) :
    (f <$> p).Follows FoundByOwner (OwnStatement u) fun _ => True := by
  rw [map_eq_pure_bind]
  exact Prog.follows_bind (hp.mono fun _ _ => trivial)

private theorem follows_commit (ref : SessionRef) :
    Prog.Follows FoundByOwner (OwnStatement u) (fun _ => True) (conv (.commit ref)) :=
  ⟨trivial, fun _ _ => trivial, fun _ => trivial⟩

/-- Every statement of a request is one of its user. -/
private theorem convRequest_follows (r : ConvRequest) :
    r.program.Follows FoundByOwner (OwnStatement r.userId) fun _ => True := by
  cases r with
  | create userId tenantId title =>
    refine follows_map ?_
    unfold createConversation
    split
    · trivial
    · exact follows_conv trivial fun _ _ => follows_conv rfl fun _ _ => follows_conv trivial fun _ _ => trivial
  | list userId limit offset =>
    refine follows_map ?_
    unfold listConversations
    split
    · trivial
    · split
      · trivial
      · exact follows_conv trivial fun _ _ => follows_conv rfl fun _ _ => trivial
  | messages userId convId =>
    refine follows_map (follows_conv trivial fun _ _ => follows_conv rfl fun found hfound => ?_)
    cases found with
    | none => trivial
    | some c => exact follows_conv (hfound rfl) fun _ _ => trivial
  | archive userId convId =>
    exact follows_map (follows_conv trivial fun _ _ => follows_conv rfl fun _ _ => follows_commit _)
  | chat c answer =>
    refine follows_map (follows_conv trivial fun _ _ => follows_conv rfl fun found hfound => ?_)
    cases found with
    | none => trivial
    | some row =>
      refine follows_conv (hfound rfl) fun _ _ => follows_conv trivial fun _ _ => ?_
      cases answer with
      | none => trivial
      | some a =>
        exact follows_conv trivial fun _ _ => follows_conv (hfound rfl) fun _ _ => follows_commit _

end Programs

/-- The invariant: everything is with its owner, and every request goes on with statements of its user. -/
structure ConvInv (s : ConvState) : Prop where
  world : ConvOwned s.world
  procs : s.Following FoundByOwner fun r => OwnStatement r.userId

theorem convInv_step {s s' : ConvState} {l : ConvLabel} (hi : ConvInv s)
    (h : convService.step s l = some s') : ConvInv s' := by
  refine ⟨?_, hi.procs.step convRequest_follows (fun pid r o a ho => (convReply_owned hi.world ho).2 a) h⟩
  rcases step_cases h with ⟨pid, r, rfl, -, rfl⟩ | ⟨pid, out, r, o, k, rfl, hp, rfl⟩ | ⟨⟨⟩, w, rfl, hw, rfl⟩
  · exact hi.world
  · rw [resume_world]
    rcases Outcome.world_eq (convService.handle pid r) o s.world out with heq | heq
    · rw [heq]
      exact hi.world
    · rw [heq]
      exact (convReply_owned hi.world (hi.procs pid _ hp).1).1
  · obtain rfl := Option.some.inj hw
    exact ⟨hi.world.rows, hi.world.loaded, hi.world.pending⟩

theorem convInv_blank : ConvInv (idle ConvWorld.blank) where
  world := ⟨nofun, nofun, nofun⟩
  procs := following_idle _ _ _

/-- The request, if it is by this user. -/
def ConvRequest.ofUser (u : Uuid) (r : ConvRequest) : Option ConvRequest :=
  if r.userId = u then some r else none

private theorem ConvRequest.ofUser_eq_some {u : Uuid} {r r' : ConvRequest} (h : r.ofUser u = some r') :
    r' = r ∧ r.userId = u := by
  unfold ConvRequest.ofUser at h
  split at h
  · exact ⟨(Option.some.inj h).symm, by assumption⟩
  · cases h

/-- The requests of one user, alone and among the others. -/
private theorem convService_projects (u : Uuid) :
    Projects convService convService (ConvRequest.ofUser u) some ConvInv (fun _ _ => True)
      fun w v => v = w.only u where
  program r r' hr := by rw [(ConvRequest.ofUser_eq_some hr).1]
  enter pid w v h := ⟨h, h⟩
  own s v pid r r' o k hi hp hr h := by
    obtain ⟨rfl, rfl⟩ := ConvRequest.ofUser_eq_some hr
    subst h
    exact convReply_only hi.world (hi.procs pid _ hp).1
  other s v pid out r o k hi _ hp hr h := by
    have hne : r.userId ≠ u := fun heq => by simp [ConvRequest.ofUser, heq] at hr
    exact h.trans (convReply_only_other hi.world hne o).symm
  envOwn e e' w w' v hw he h := by
    obtain rfl := Option.some.inj he
    obtain ⟨⟩ := e
    obtain rfl := Option.some.inj hw
    exact ⟨_, rfl, by rw [h]; rfl⟩
  envOther e w w' v hw he := by cases he

/-- The steps of the requests of a user, and those of time. -/
def stepsOfUser (u : Uuid) (ls : List ConvLabel) : List ConvLabel :=
  convService.viewed (sees (ConvRequest.ofUser u) some) (idle ConvWorld.blank) ls

/-- The requests of a user. -/
def requestsOf (u : Uuid) (s : ConvState) (pid : Nat) :
    Option (Proc ConvCalls ApiErr ConvRequest ConvReply) :=
  (s.procs pid).bind (Proc.as (ConvRequest.ofUser u))

/-- To a user the others do not exist: without their requests, those of the user make the same statements,
return the same, and leave the same rows. -/
theorem conversations_private (u : Uuid) {ls : List ConvLabel} {s : ConvState}
    (hr : convService.run (idle ConvWorld.blank) ls = some s) :
    ∃ t, convService.run (idle ConvWorld.blank) (stepsOfUser u ls) = some t ∧
      t.procs = requestsOf u s ∧ t.world = s.world.only u := by
  have hblank : ConvWorld.blank = ConvWorld.blank.only u := by
    simp [ConvWorld.blank, ConvWorld.only, ConvTables.only]
  obtain ⟨-, t, ht, hR⟩ := (convService_projects u).run (D := fun _ _ => True) (fun _ _ _ => convInv_step)
    (fun _ _ _ _ _ _ _ _ => trivial) convInv_blank (meets_true _ _) (seenAs_idle hblank) hr
  exact ⟨t, ht, funext hR.procs, hR.part⟩

/-- Two users make a conversation each, and one reads the list while the other writes. -/
def twoUserRun : List ConvLabel :=
  [.start 0 (.create 1 7 none), .start 1 (.create 2 7 (some "b")), .call 0 .ok, .call 1 .ok, .call 0 .ok,
    .call 1 .ok, .call 1 .ok, .env .tick, .call 0 .ok, .start 2 (.list 1 50 0), .call 2 .ok, .call 2 .ok]

theorem conversations_private_two :
    ∃ s t, convService.run (idle ConvWorld.blank) twoUserRun = some s ∧
      convService.run (idle ConvWorld.blank) (stepsOfUser 1 twoUserRun) = some t ∧
      t.procs = requestsOf 1 s ∧ t.world = s.world.only 1 := by
  obtain ⟨s, hs⟩ : ∃ s, convService.run (idle ConvWorld.blank) twoUserRun = some s :=
    Option.isSome_iff_exists.mp rfl
  obtain ⟨t, ht, hprocs, hworld⟩ := conversations_private 1 hs
  exact ⟨s, t, hs, ht, hprocs, hworld⟩

end LegalRag
