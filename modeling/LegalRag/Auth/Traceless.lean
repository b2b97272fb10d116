import LegalRag.Auth.Issuing
import LegalRag.Auth.SingleUse

/-!
# Auth requests that fail

Every route makes its commit last, and only the commit changes the tables.  So a request that ends in an
exception, of whatever statement before the commit, leaves them as they were (`no_trace`): what it has
inserted and assigned is gone with its session.
-/

namespace LegalRag

open Calls Prog Relational

/-- After the commit no call is made. -/
def commitsLast : Protocol AuthCalls ApiErr Bool where
  allows committed _ := committed = false
  replies _ _ _ := True
  next committed o _ := committed || decide (o = .commit)
  failed _ _ _ := false

/-- After the commit nothing is raised. -/
def CommitEnds {α : Type} (committed : Bool) (r : Except ApiErr α) : Prop :=
  committed = true → ∃ a, r = .ok a

/-- The calls that are not the commit. -/
def NoCommit (o : AuthOp) : Prop := o ≠ .commit

/-! ### The programs -/

section Programs

variable {cfg : AuthSettings} {α β : Type}

private theorem commitEnds_error (e : ApiErr) : CommitEnds false (.error e : Except ApiErr α) := by
  intro hfalse
  cases hfalse

/-- A part of a route that comes before the commit, and the rest. -/
private theorem commitsLast_bind {p : Auth α} {f : α → Auth β} {known : α → Prop}
    (hp : p.Follows (fun _ _ => True) NoCommit known) (hf : ∀ a, (f a).Obeys commitsLast CommitEnds false) :
    (p >>= f).Obeys commitsLast CommitEnds false := by
  have hstay : ∀ o, NoCommit o → commitsLast.allows false o ∧
      (∀ a : o.Resp, commitsLast.replies false o a → True ∧ commitsLast.next false o a = false) ∧
      ∀ e, commitsLast.failed false o e = false := by
    intro o ho
    refine ⟨rfl, fun a _ => ⟨trivial, ?_⟩, fun _ => rfl⟩
    show (false || decide (o = .commit)) = false
    rw [decide_eq_false ho, Bool.or_false]
  refine obeys_bind ((obeys_of_follows hstay hp).mono fun φ r hr => ?_)
  rw [hr.1]
  cases r with
  | ok a => exact hf a
  | error e => exact commitEnds_error e

/-- One call before the commit, and the rest. -/
private theorem commitsLast_call {o : AuthOp} (ho : NoCommit o) {f : o.Resp → Auth β}
    (hf : ∀ a, (f a).Obeys commitsLast CommitEnds false) :
    (auth o >>= f).Obeys commitsLast CommitEnds false :=
  commitsLast_bind (follows_perform ho) hf

/-- An incidental part of a route, and the rest. -/
private theorem commitsLast_incidentally {p : Auth α} {f : α → Auth β} {known : α → Prop}
    (hp : Incidentally p known) (hf : ∀ a, (f a).Obeys commitsLast CommitEnds false) :
    (p >>= f).Obeys commitsLast CommitEnds false := by
  refine commitsLast_bind (hp.weaken fun o ho => ?_) hf
  rintro rfl
  exact ho

/-- The commit and the answer. -/
private theorem commitsLast_commit (a : α) :
    (auth .commit >>= fun _ => (pure a : Auth α)).Obeys commitsLast CommitEnds false :=
  obeys_perform_bind rfl (fun _ _ _ => ⟨a, rfl⟩) fun e => commitEnds_error e

private theorem register_commitsLast (cfg : AuthSettings) (req : RegisterRequest) :
    (register cfg req >>= fun u => pure (AuthReply.user u)).Obeys commitsLast CommitEnds false := by
  unfold register
  simp only [bind_assoc]
  refine commitsLast_incidentally (getOrCreateTenant_incidental _ _) fun tenant => ?_
  refine commitsLast_call (o := .selectUser tenant.id (cfg.lower req.email))
    (by simp [NoCommit]) fun found => ?_
  cases found with
  | some user => exact commitEnds_error _
  | none =>
    simp only [bind_assoc]
    refine commitsLast_incidentally (hashPassword_incidental _) fun hash => ?_
    refine commitsLast_call (by simp [NoCommit]) fun user => ?_
    exact commitsLast_commit _

/-- The row of a new refresh token, what is incidental, the commit and the answer. -/
private theorem issue_commitsLast (cfg : AuthSettings) (id : Uuid) (token : String) (expiresAt : Nat)
    (userAgent ipAddress : Option String) {rest : Auth Unit} (hrest : rest.Only Incidental)
    (reply : AuthReply) :
    (saveRefresh cfg id token expiresAt userAgent ipAddress >>= fun _ => rest >>= fun _ =>
      auth .commit >>= fun _ => pure reply).Obeys commitsLast CommitEnds false :=
  commitsLast_call (by simp [NoCommit]) fun _ => commitsLast_incidentally hrest fun _ =>
  commitsLast_commit reply

private theorem login_commitsLast (cfg : AuthSettings) (req : LoginRequest) :
    (login cfg req >>= fun r => pure (AuthReply.tokens r)).Obeys commitsLast CommitEnds false := by
  unfold login
  simp only [bind_assoc]
  refine commitsLast_incidentally (getOrCreateTenant_incidental _ _) fun tenant => ?_
  refine commitsLast_call (o := .selectUser tenant.id (cfg.lower req.email))
    (by simp [NoCommit]) fun found => ?_
  cases found with
  | none => exact commitEnds_error _
  | some user =>
    cases hverify : cfg.verify user.passwordHash req.password with
    | error e =>
      simp only [verifyPassword, hverify]
      exact commitEnds_error _
    | ok ok =>
      simp only [verifyPassword, hverify]
      by_cases hok : ok = true
      · simp only [done_bind, cont_ok, if_pos hok]
        by_cases hactive : user.isActive = true
        · simp only [if_pos hactive, bind_assoc]
          refine commitsLast_incidentally (tokenPair_carries user.id tenant.id) fun x => ?_
          refine commitsLast_incidentally refreshExpiry_incidental fun expiresAt => ?_
          exact issue_commitsLast cfg _ _ _ _ _ (touchLogin_incidental user.id) _
        · simp only [if_neg hactive]
          exact commitEnds_error _
      · simp only [done_bind, cont_ok, if_neg hok]
        exact commitEnds_error _

private theorem refresh_commitsLast (cfg : AuthSettings) (req : RefreshRequest) :
    (refresh cfg req >>= fun r => pure (AuthReply.tokens r)).Obeys commitsLast CommitEnds false := by
  unfold refresh
  simp only [bind_assoc]
  refine commitsLast_incidentally (refresh_decodes req.refreshToken) fun payload => ?_
  by_cases htyp : payload.typ ≠ .refresh
  · simp only [if_pos htyp]
    exact commitEnds_error _
  simp only [if_neg htyp, bind_assoc]
  refine commitsLast_incidentally (getRefresh_incidental req.refreshToken) fun rt => ?_
  refine commitsLast_incidentally (usable_incidental rt) fun ok => ?_
  cases ok with
  | false => exact commitEnds_error _
  | true =>
    simp only [if_pos, rotate, bind_assoc]
    refine commitsLast_incidentally (revokeRefresh_incidental req.refreshToken) fun _ => ?_
    refine commitsLast_incidentally (parseUuid_reads payload.sub) fun id => ?_
    refine commitsLast_incidentally (parseUuid_reads payload.tid) fun tid => ?_
    refine commitsLast_incidentally (tokenPair_carries id tid) fun x => ?_
    refine commitsLast_incidentally refreshExpiry_incidental fun expiresAt => ?_
    have hnothing : (pure () : Auth Unit).Only Incidental := only_done _
    exact issue_commitsLast cfg _ _ _ _ _ hnothing _

private theorem logout_commitsLast (cfg : AuthSettings) (req : RefreshRequest) :
    (logout cfg req >>= fun _ => pure AuthReply.noContent).Obeys commitsLast CommitEnds false := by
  unfold logout
  simp only [bind_assoc]
  exact commitsLast_incidentally (revokeRefresh_incidental req.refreshToken) fun _ => commitsLast_commit _

private theorem program_commitsLast (cfg : AuthSettings) (req : AuthRequest) :
    (req.program cfg).Obeys commitsLast CommitEnds false := by
  cases req with
  | register r =>
    rw [AuthRequest.program, map_eq_pure_bind]
    exact register_commitsLast cfg r
  | login r =>
    rw [AuthRequest.program, map_eq_pure_bind]
    exact login_commitsLast cfg r
  | refresh r =>
    rw [AuthRequest.program, map_eq_pure_bind]
    exact refresh_commitsLast cfg r
  | logout r =>
    rw [AuthRequest.program, map_eq_pure_bind]
    exact logout_commitsLast cfg r

end Programs

/-! ### The tables -/

/-- The tables of the database. -/
structure AuthTables where
  tenants : Table Tenant.key
  users : Table User.key
  refreshTokens : Table RefreshToken.key

def AuthWorld.tables (w : AuthWorld) : AuthTables := ⟨w.tenants, w.users, w.refreshTokens⟩

/-- A failure is one of a statement before the commit, or of a commit that is not made. -/
def BeforeCommit (o : AuthOp) (out : Outcome ApiErr) : Prop :=
  o = .commit → out = .ok ∨ out.applied = false

/-- Only the commit changes the tables. -/
private theorem authReply_tables (pid : Nat) {o : AuthOp} (ho : NoCommit o) (w : AuthWorld) :
    (authReply pid o w).2.tables = w.tables := by
  cases o with
  | commit => exact absurd rfl ho
  | insertTenant name slug =>
    simp only [authReply]
    split <;> rfl
  | insertUser u =>
    simp only [authReply]
    split <;> rfl
  | selectRefresh hash =>
    simp only [authReply]
    split <;> rfl
  | insertRefresh r =>
    simp only [authReply]
    split
    · rfl
    · split
      · rfl
      · split <;> rfl
  | _ => rfl

/-- A commit that violates a constraint changes nothing. -/
private theorem tables_of_commit_error {pid : Nat} {w : AuthWorld} {e : ApiErr}
    (h : (authReply pid .commit w).1 = .error e) : (authReply pid .commit w).2.tables = w.tables := by
  cases hc : w.applyCommit (w.sessions pid) with
  | none =>
    simp only [authReply, hc]
    rfl
  | some w' => simp [authReply, hc] at h

/-- A call after which the program is not past its commit leaves the tables as they are. -/
private theorem tables_of_call {pid : Nat} {o : AuthOp} {w : AuthWorld} {out : Outcome ApiErr}
    {r : Except ApiErr o.Resp} (hl : BeforeCommit o out) (hr : out.reply (authReply pid) o w = some r)
    (hafter : commitsLast.after false o r = false) : (out.world (authReply pid) o w).tables = w.tables := by
  by_cases ho : o = .commit
  · subst ho
    rcases hl rfl with rfl | hnot
    · cases r with
      | ok a => cases hafter
      | error e => exact tables_of_commit_error (Option.some.inj hr)
    · rw [Outcome.world_of_not_applied hnot]
  · rcases Outcome.world_eq (authReply pid) o w out with hw | hw
    · rw [hw]
    · rw [hw]
      exact authReply_tables pid ho w

/-- A program past its commit makes no call. -/
private theorem done_of_committed {p : Auth AuthReply} (hp : p.Obeys commitsLast CommitEnds true) : ∃ a,
    p = .done (.ok a) := by
  cases p with
  | done r =>
    obtain ⟨a, rfl⟩ := hp rfl
    exact ⟨a, rfl⟩
  | call o k => cases hp.1

/-- A program that makes its commit last and ends in an exception leaves the tables as they were. -/
private theorem tables_of_error {pid : Nat} {p : Auth AuthReply} {w : AuthWorld}
    {outs : List (Outcome ApiErr)} {e : ApiErr} (hp : p.Obeys commitsLast CommitEnds false)
    (hl : p.Legal (authReply pid) BeforeCommit outs w)
    (he : (p.run (authReply pid) outs w).1 = some (.error e)) :
    (p.run (authReply pid) outs w).2.tables = w.tables := by
  induction p generalizing w outs with
  | done r => rfl
  | call o k ih =>
    obtain ⟨hout, hrest⟩ := hl
    obtain ⟨-, hok, herr⟩ := hp
    cases hreply : (outs.headD .ok).reply (authReply pid) o w with
    | none =>
      simp only [run, hreply] at he
      cases he
    | some r =>
      simp only [run, hreply] at he ⊢
      have hk : (k r).Obeys commitsLast CommitEnds (commitsLast.after false o r) := by
        cases r with
        | ok a => exact hok a trivial
        | error e' => exact herr e'
      cases hafter : commitsLast.after false o r with
      | true =>
        rw [hafter] at hk
        obtain ⟨a, ha⟩ := done_of_committed hk
        rw [ha] at he
        cases he
      | false =>
        rw [hafter] at hk
        rw [ih r hk (hrest r hreply) he]
        exact tables_of_call hout hreply hafter

/-- An auth request that ends in an exception leaves the tables as they were before it. -/
theorem no_trace (cfg : AuthSettings) (pid : Nat) (w : AuthWorld) (req : AuthRequest)
    (outs : List (Outcome ApiErr))
    (hl : (req.program cfg).Legal (authReply pid) BeforeCommit outs (w.openSession pid)) (e : ApiErr)
    (he : ((req.program cfg).run (authReply pid) outs (w.openSession pid)).1 = some (.error e)) :
    ((req.program cfg).run (authReply pid) outs (w.openSession pid)).2.tables = w.tables :=
  (tables_of_error (program_commitsLast cfg req) hl he).trans rfl

/-- A login with an unknown tenant. -/
def strangeLogin : AuthRequest := .login ⟨"an@example.vn", "secret", "unknown", none, none⟩

/-- It has inserted the tenant and read no user, and fails. -/
theorem no_trace_strangeLogin :
    ((strangeLogin.program plainSettings).run (authReply 0) [] (AuthWorld.oneUser.openSession 0)).1 =
        some (.error (.http 401 "invalid credentials")) ∧
      ((strangeLogin.program plainSettings).run (authReply 0) [] (AuthWorld.oneUser.openSession 0)).2.tables =
        AuthWorld.oneUser.tables := by
  have herror : ((strangeLogin.program plainSettings).run (authReply 0) []
    (AuthWorld.oneUser.openSession 0)).1 =
      some (.error (.http 401 "invalid credentials")) := by decide +kernel
  have hlegal := @legal_nil _ _ _ _ (authReply 0) BeforeCommit (fun _ _ => Or.inl rfl)
    (strangeLogin.program plainSettings) (AuthWorld.oneUser.openSession 0)
  exact ⟨herror, no_trace plainSettings 0 AuthWorld.oneUser strangeLogin [] hlegal _ herror⟩

end LegalRag
