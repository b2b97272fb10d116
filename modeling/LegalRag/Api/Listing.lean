import LegalRag.Api.Private
import LegalRag.Calls.Watch

/-!
# The list of conversations

`list_for_user` cuts a page from the conversations of the user that are not archived, those that changed
last first.

What a request for a page has read is followed through its statements (`ListStage`, `listed_good`).  If
nothing of the user is committed while a client asks for one page after the other, the pages together are
the whole list, whatever the other users do meanwhile (`pages_complete`).
-/

namespace LegalRag

open Calls Service

/-- The rows of a page. -/
def pageRows (u : Uuid) (limit offset : Int) (t : ConvTables) : List ConversationRow :=
  ((listedRows u t.conversations).drop offset.toNat).take limit.toNat

/-! ### What a statement leaves alone -/

section Frame

variable {u v : Uuid} {pid q : Nat} {w : ConvWorld}

/-- A statement changes sessions of its own request only. -/
private theorem convReply_sessions (hne : pid ≠ q) (o : ConvOp) :
    (convReply v q o w).2.sessions u pid = w.sessions u pid := by
  have hset : ∀ (w : ConvWorld) ref s, (w.setSession v q ref s).sessions u pid = w.sessions u pid := by
    intro w ref s
    funext ref'
    rw [setSession_sessions, if_neg (fun h => hne h.2.1)]
  cases o with
  | addMessage ref m =>
    simp only [convReply]
    split <;> exact hset w ref _
  | commit ref => exact hset { w with tables := w.visible v q ref } ref _
  | openSession ref => exact hset w ref _
  | create ref tenantId userId title => exact hset w ref _
  | get ref convId userId => exact hset w ref _
  | listForUser ref userId limit offset => exact hset w ref _
  | archive ref convId userId => exact hset w ref _
  | messages ref convId limit => exact hset w ref _

/-- The tables change by commits only. -/
theorem convReply_tables {o : ConvOp} (ho : ∀ ref, o ≠ .commit ref) :
    (convReply v q o w).2.tables = w.tables := by
  cases o with
  | addMessage ref m =>
    simp only [convReply]
    split <;> rfl
  | commit ref => exact absurd rfl (ho ref)
  | _ => rfl

/-- The list of a user is read off the rows of the user. -/
private theorem listedRows_only {t : ConvTables} (h : t.Owned) :
    listedRows u (t.only u).conversations = listedRows u t.conversations := by
  unfold listedRows ConvTables.only
  rw [filter_only]
  intro c hc hp
  have huser : c.userId = u ∧ ¬ c.archived := by simpa using hp
  simpa using (h c hc).trans huser.1

/-- A step leaves the sessions of the requests alone that do not take it. -/
theorem conv_step_sessions {s s' : ConvState} {l : ConvLabel} (hl : l.pid ≠ some pid)
    (h : convService.step s l = some s') : s'.world.sessions u pid = s.world.sessions u pid := by
  rcases step_cases h with ⟨q, r, rfl, -, rfl⟩ | ⟨q, out, r, o, k, rfl, -, rfl⟩ | ⟨⟨⟩, w, rfl, hw, rfl⟩
  · rfl
  · have hne : pid ≠ q := fun heq => hl (congrArg some heq.symm)
    rw [resume_world]
    rcases Outcome.world_eq (convService.handle q r) o s.world out with heq | heq
    · rw [heq]
    · rw [heq]
      exact convReply_sessions hne o
  · obtain rfl := Option.some.inj hw
    rfl

end Frame

/-! ### A request for a page -/

/-- What is left of `list_conversations`: what it has read is `Good`. -/
inductive ListStage (Good : List ConversationRow → Prop) (u : Uuid) (limit offset : Int) (pid : Nat)
    (w : ConvWorld) : ConvProg ConvReply → Prop
  | new {p : ConvProg ConvReply} (hp : p = (ConvRequest.list u limit offset).program) :
      ListStage Good u limit offset pid w p
  | opened (empty : (w.sessions u pid .request).pending = []) :
      ListStage Good u limit offset pid w
        (.call (.listForUser .request u limit.toNat offset.toNat)
          (Prog.cont fun items => .done (.ok (.conversations (items.map ConversationRow.out)))))
  | failed (e : ApiErr) : ListStage Good u limit offset pid w (.done (.error e))
  | read (items : List ConversationRow) (good : Good items) :
      ListStage Good u limit offset pid w (.done (.ok (.conversations (items.map ConversationRow.out))))

private theorem list_program (u : Uuid) (limit offset : Int) :
    (∃ e, (ConvRequest.list u limit offset).program = .done (.error e)) ∨
      (ConvRequest.list u limit offset).program = .call (.openSession .request) (Prog.cont fun _ =>
          .call (.listForUser .request u limit.toNat offset.toNat)
            (Prog.cont fun items => .done (.ok (.conversations (items.map ConversationRow.out))))) := by
  show (∃ e, (.conversations <$> listConversations u limit offset : ConvProg ConvReply) = _) ∨
    (.conversations <$> listConversations u limit offset : ConvProg ConvReply) = _
  rw [map_eq_pure_bind]
  unfold listConversations
  split
  · exact Or.inl ⟨_, rfl⟩
  · split
    · exact Or.inl ⟨_, rfl⟩
    · refine Or.inr (congrArg (Prog.call _) (funext fun r => ?_))
      cases r with
      | error e => rfl
      | ok a => exact congrArg (Prog.call _) (funext fun r' => by cases r' <;> rfl)

section Stage

variable {Good : List ConversationRow → Prop} {u : Uuid} {limit offset : Int} {pid : Nat} {w : ConvWorld}

private theorem ListStage.call {o : ConvOp} {k : Except ApiErr (ConvOp.Resp o) → ConvProg ConvReply}
    (hgood : Good (pageRows u limit offset w.tables))
    (h : ListStage Good u limit offset pid w (.call o k)) {out : Outcome ApiErr}
    {rep : Except ApiErr (ConvOp.Resp o)} (hrep : out.reply (convReply u pid) o w = some rep) :
    ListStage Good u limit offset pid (out.world (convReply u pid) o w) (k rep) := by
  cases h with
  | new hp =>
    rcases list_program u limit offset with ⟨e, he⟩ | heq
    · rw [he] at hp
      cases hp
    · rw [heq] at hp
      cases hp
      cases rep with
      | error e => exact .failed e
      | ok a =>
        refine .opened ?_
        cases out with
        | ok =>
          show ((w.setSession u pid .request .fresh).sessions u pid .request).pending = []
          rw [setSession_sessions, if_pos ⟨rfl, rfl, rfl⟩]
          rfl
        | raised e applied => cases hrep
        | crashed applied => cases hrep
  | opened hempty =>
    cases rep with
    | error e => exact .failed e
    | ok items =>
      have hitems := Except.ok.inj (Outcome.handler_ok hrep)
      have hvisible : w.visible u pid .request = w.tables := by rw [ConvWorld.visible, hempty]; rfl
      refine .read items ?_
      rw [← hitems, hvisible]
      exact hgood

/-- The steps of others leave a page where it is. -/
private theorem ListStage.other {p : ConvProg ConvReply} {w' : ConvWorld}
    (hsame : w'.sessions u pid = w.sessions u pid) (h : ListStage Good u limit offset pid w p) :
    ListStage Good u limit offset pid w' p := by
  cases h with
  | new hp => exact .new hp
  | opened hempty => exact .opened (hsame ▸ hempty)
  | failed e => exact .failed e
  | read items good => exact .read items good

/-- What has been returned is what was read. -/
private theorem ListStage.returned {cs : List ConversationOut}
    (h : ListStage Good u limit offset pid w (.done (.ok (.conversations cs)))) :
    ∃ items, Good items ∧ cs = items.map ConversationRow.out := by
  cases h with
  | new hp =>
    rcases list_program u limit offset with ⟨e, he⟩ | heq
    · rw [he] at hp
      cases hp
    · rw [heq] at hp
      cases hp
  | read items good => exact ⟨items, good, rfl⟩

end Stage

/-- What a list request has returned is `Good`, if every page of the tables is while it runs. -/
theorem listed_good {Inv : ConvState → Prop} {C : ConvState → ConvLabel → Prop}
    {P : Int → Int → List ConversationRow → Prop} {u : Uuid}
    (hinv : ∀ s l s', Inv s → C s l → convService.step s l = some s' → Inv s')
    (hgood : ∀ s limit offset, Inv s → P limit offset (pageRows u limit offset s.world.tables))
    {s s' : ConvState} {ls : List ConvLabel} (hi : Inv s) (hm : convService.Meets C s ls)
    (hr : convService.run s ls = some s') {pid : Nat} (hnew : s.procs pid = none) {limit offset : Int}
    {cs : List ConversationOut}
    (hdone : s'.procs pid = some ⟨.list u limit offset, .done (.ok (.conversations cs))⟩) :
    ∃ items, P limit offset items ∧ cs = items.map ConversationRow.out := by
  let G : ConvRequest → ConvProg ConvReply → ConvWorld → Prop := fun r p w =>
    ∀ limit offset, r = .list u limit offset → ListStage (P limit offset) u limit offset pid w p
  have hwatch : s'.Watched G pid := by
    refine (watch_run hinv ?_ ?_ ?_ hi (watched_of_none hnew) hm hr).2
    · rintro s r _ limit offset rfl
      exact .new rfl
    · rintro s r o k out rep hs _ hp hg hrep limit offset rfl
      exact (hg limit offset rfl).call (hgood s limit offset hs) hrep
    · rintro s l s' p hs _ hstep hne hp hg limit offset hreq
      exact (hg limit offset hreq).other (conv_step_sessions hne hstep)
  exact (hwatch _ hdone limit offset rfl).returned

/-! ### All pages -/

/-- Whether the step commits something of the user. -/
def commitsOf (u : Uuid) (s : ConvState) : ConvLabel → Bool
  | .call pid _ =>
    match s.procs pid with
    | some ⟨r, .call (.commit _) _⟩ => r.userId = u
    | _ => false
  | .start .. | .env _ => false

/-- The step commits nothing of the user. -/
abbrev QuietFor (u : Uuid) (s : ConvState) (l : ConvLabel) : Prop := commitsOf u s l = false

/-- The list of a user stays as it is while nothing of the user is committed. -/
private theorem listedRows_step {u : Uuid} {s s' : ConvState} {l : ConvLabel} (hi : ConvInv s)
    (hq : QuietFor u s l) (h : convService.step s l = some s') :
    listedRows u s'.world.tables.conversations = listedRows u s.world.tables.conversations := by
  have hi' := convInv_step hi h
  rcases step_cases h with ⟨pid, r, rfl, -, rfl⟩ | ⟨pid, out, r, o, k, rfl, hp, rfl⟩ | ⟨⟨⟩, w, rfl, hw, rfl⟩
  · rfl
  · have howned := hi'.world.rows
    rw [resume_world] at howned ⊢
    rcases Outcome.world_eq (convService.handle pid r) o s.world out with heq | heq
    · rw [heq]
    · rw [heq] at howned ⊢
      by_cases hu : r.userId = u
      · have ho : ∀ ref, o ≠ .commit ref := by
          rintro ref rfl
          have hcommits : commitsOf u s (.call pid out) = true := by simp only [commitsOf, hp, hu, decide_true]
          rw [hq] at hcommits
          cases hcommits
        exact congrArg (fun t => listedRows u t.conversations) (convReply_tables ho)
      · have honly : ((convReply r.userId pid o s.world).2.tables.only u) = s.world.tables.only u :=
          congrArg ConvWorld.tables (convReply_only_other hi.world hu o)
        rw [← listedRows_only hi.world.rows, ← honly]
        exact (listedRows_only howned).symm
  · obtain rfl := Option.some.inj hw
    rfl

/-- Pages of `n` put one after the other. -/
private theorem flatMap_pages {α : Type} (xs : List α) (n m : Nat) :
    (List.range m).flatMap (fun i => (xs.drop (n * i)).take n) = xs.take (n * m) := by
  induction m with
  | zero => simp
  | succ m ih => rw [List.range_succ, List.flatMap_append, ih, List.flatMap_singleton, Nat.mul_succ,
      List.take_add]

/-- The conversations of the user that are not archived. -/
def openRows (u : Uuid) (t : ConvTables) : List ConversationRow :=
  t.conversations.filter fun c => c.userId = u ∧ ¬ c.archived

/-- The list holds the conversations that are not archived, those that changed last first. -/
theorem listedRows_spec (u : Uuid) (t : ConvTables) :
    (listedRows u t.conversations).Perm (openRows u t) ∧
      (listedRows u t.conversations).Pairwise fun a b => b.updatedAt ≤ a.updatedAt := by
  have htotal : Std.Total fun a b : ConversationRow => b.updatedAt ≤ a.updatedAt :=
    ⟨fun a b => Nat.le_total _ _⟩
  have htrans : IsTrans ConversationRow fun a b => b.updatedAt ≤ a.updatedAt :=
    ⟨fun a b c h h' => h'.trans h⟩
  exact ⟨List.perm_insertionSort _ _, List.pairwise_insertionSort _ _⟩

/-- If a user commits nothing while the pages of the list are read, one request a page and in any order,
they are together the conversations that were not archived, each once, those that changed last first; no
two of them are taken to have changed at the same time, as Postgres may put such rows in one order for one
page and in the other for the next. -/
theorem pages_complete {u : Uuid} {ls₀ ls : List ConvLabel} {s s' : ConvState} {n m : Nat}
    {p : Nat → Nat} {cs : Nat → List ConversationOut} {rows : List ConversationRow}
    (hreach : convService.run (idle ConvWorld.blank) ls₀ = some s)
    (hquiet : convService.Meets (QuietFor u) s ls) (hrun : convService.run s ls = some s')
    (hnew : ∀ i < m, s.procs (p i) = none)
    (hdone : ∀ i < m, s'.procs (p i) =
      some ⟨.list u n (n * i), .done (.ok (.conversations (cs i)))⟩)
    (hties : ∀ a ∈ openRows u s.world.tables, ∀ b ∈ openRows u s.world.tables,
      a.updatedAt = b.updatedAt → a = b) (hall : (openRows u s.world.tables).length ≤ n * m)
    (hrows : rows.Perm (openRows u s.world.tables))
    (hsorted : rows.Pairwise fun a b => b.updatedAt ≤ a.updatedAt) :
    (List.range m).flatMap cs = rows.map ConversationRow.out := by
  obtain ⟨hperm, hlisted⟩ := listedRows_spec u s.world.tables
  have hrows_eq : rows = listedRows u s.world.tables.conversations := by
    refine (hrows.trans hperm.symm).eq_of_pairwise (fun a b ha hb h h' => ?_) hsorted hlisted
    exact hties a (hrows.mem_iff.mp ha) b (hperm.mem_iff.mp hb) (Nat.le_antisymm h' h)
  have hinv : ∀ t l t', (ConvInv t ∧ listedRows u t.world.tables.conversations = rows) →
      QuietFor u t l → convService.step t l = some t' →
        ConvInv t' ∧ listedRows u t'.world.tables.conversations = rows :=
    fun t l t' ht hq hstep => ⟨convInv_step ht.1 hstep, (listedRows_step ht.1 hq hstep).trans ht.2⟩
  have hi : ConvInv s := run_keeps ConvInv (fun _ _ _ => convInv_step) convInv_blank hreach
  have hpage : ∀ i < m, cs i = ((rows.map ConversationRow.out).drop (n * i)).take n := by
    intro i hlt
    obtain ⟨items, rfl, hcs⟩ := listed_good
      (P := fun limit offset items => items = (rows.drop offset.toNat).take limit.toNat) hinv
      (fun t limit offset ht => by rw [pageRows, ht.2]) ⟨hi, hrows_eq.symm⟩ hquiet hrun (hnew i hlt)
      (hdone i hlt)
    have hoffset : ((n : Int) * i).toNat = n * i := by
      rw [← Int.natCast_mul, Int.toNat_natCast]
    rw [hcs, hoffset, Int.toNat_natCast, List.map_take, List.map_drop]
  calc (List.range m).flatMap cs
      = (List.range m).flatMap fun i => ((rows.map ConversationRow.out).drop (n * i)).take n := by
        refine List.flatMap_congr fun i hmem => hpage i (List.mem_range.mp hmem)
    _ = (rows.map ConversationRow.out).take (n * m) := flatMap_pages _ n m
    _ = rows.map ConversationRow.out := by
        refine List.take_of_length_le ?_
        rw [List.length_map, hrows.length_eq]
        exact hall

/-- A user makes two conversations. -/
def pagesBefore : List ConvLabel :=
  .start 0 (.create 1 7 none) :: List.replicate 3 (.call 0 .ok) ++ .env .tick ::
    .start 1 (.create 1 7 (some "b")) :: List.replicate 3 (.call 1 .ok)

/-- The user asks for the second page and then for the first one, while another user makes a
conversation. -/
def pagesDuring : List ConvLabel :=
  [.start 2 (.create 2 7 none), .start 3 (.list 1 1 1), .call 2 .ok, .start 4 (.list 1 1 0), .call 3 .ok,
    .call 2 .ok, .call 4 .ok, .call 4 .ok, .call 2 .ok, .call 3 .ok]

def conversationAt (k : Nat) (title : String) : ConversationRow :=
  { id := Nat.pair 1 k, userId := 1, summary := none, messageCount := 0, tenantId := 7, title := title,
    archived := false, lastMessageAt := none, createdAt := k, updatedAt := k }

/-- The page that a request has returned. -/
def pageOf (s : ConvState) (pid : Nat) : List ConversationOut :=
  match s.procs pid with
  | some ⟨_, .done (.ok (.conversations cs))⟩ => cs
  | _ => []

theorem pages_complete_two :
    ∃ s s', convService.run (idle ConvWorld.blank) pagesBefore = some s ∧
      convService.run s pagesDuring = some s' ∧
      (List.range 2).flatMap (fun i => pageOf s' (4 - i)) =
        [conversationAt 1 "b", conversationAt 0 "New conversation"].map ConversationRow.out := by
  obtain ⟨s, s', hs, hs', hquiet, hopen, h₃, h₄, h₃', h₄'⟩ : ∃ s s',
      convService.run (idle ConvWorld.blank) pagesBefore = some s ∧
      convService.run s pagesDuring = some s' ∧ decide (convService.Meets (QuietFor 1) s pagesDuring) = true ∧
      openRows 1 s.world.tables = [conversationAt 0 "New conversation", conversationAt 1 "b"] ∧
      s.procs 3 = none ∧ s.procs 4 = none ∧
      s'.procs 3 = some ⟨.list 1 1 1, .done (.ok (.conversations
        [(conversationAt 0 "New conversation").out]))⟩ ∧
      s'.procs 4 = some ⟨.list 1 1 0, .done (.ok (.conversations [(conversationAt 1 "b").out]))⟩ :=
    ⟨_, _, rfl, rfl, rfl, rfl, rfl, rfl, rfl, rfl⟩
  refine ⟨s, s', hs, hs', pages_complete (n := 1) (m := 2) (u := 1) (p := fun i => 4 - i) hs
    (of_decide_eq_true hquiet) hs' ?_ ?_ ?_ ?_ ?_ ?_⟩
  · intro i hi
    rcases (by omega : i = 0 ∨ i = 1) with rfl | rfl
    · exact h₄
    · exact h₃
  · intro i hi
    rcases (by omega : i = 0 ∨ i = 1) with rfl | rfl
    · simp [pageOf, h₄']
    · simp [pageOf, h₃']
  · rw [hopen]
    decide +kernel
  · rw [hopen]
    decide
  · rw [hopen]
    exact List.Perm.swap ..
  · decide

end LegalRag
