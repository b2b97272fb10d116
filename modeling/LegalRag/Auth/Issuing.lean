import LegalRag.Auth.World
import LegalRag.Calls.Protocol
import LegalRag.Db.Documents

/-!
# Whom tokens are issued for

A login issues a pair of tokens for the user whose row it has read, in the tenant by which it has looked
the row up, if the row is active; a refresh issues one for the user and the tenant in the token that it is
given.  `program_issues` reads this off the programs.
-/

namespace LegalRag

open Calls Prog

/-- The calls that neither read nor insert a user, insert no refresh token, and do not commit. -/
def Incidental : AuthOp → Prop
  | .selectUser .. | .insertUser _ | .insertRefresh _ | .commit => False
  | _ => True

variable {cfg : AuthSettings}

/-- The token carries the user and the tenant. -/
def CarriedBy (cfg : AuthSettings) (id tid : Uuid) (token : String) : Prop :=
  ∃ p : TokenPayload, token = cfg.encode p ∧ p.sub = toString id ∧ p.tid = toString tid

/-- Both tokens of the response carry the user and the tenant. -/
structure PairFor (cfg : AuthSettings) (id tid : Uuid) (r : TokenResponse) : Prop where
  access : CarriedBy cfg id tid r.accessToken
  refresh : CarriedBy cfg id tid r.refreshToken

/-- The row is that of a token that carries its user and the tenant. -/
structure RowFor (cfg : AuthSettings) (id tid : Uuid) (r : NewRefreshToken) : Prop where
  user : r.userId = id
  token : ∃ token, CarriedBy cfg id tid token ∧ r.tokenHash = cfg.sha256 token

/-- The token that is presented names the user and the tenant. -/
def Presents (cfg : AuthSettings) (token : String) (id tid : Uuid) : Prop :=
  ∃ now p, cfg.decode now token = .ok p ∧ readDecimal p.sub.toList = some id ∧
    readDecimal p.tid.toList = some tid

/-! ### The parts of the routes -/

section Parts

/-- Nothing is assumed of the replies. -/
abbrev Incidentally {α : Type} (p : Auth α) (post : α → Prop) : Prop :=
  p.Follows (fun _ _ => True) Incidental post

private theorem incidental_call {o : AuthOp} (ho : Incidental o) : (auth o).Only Incidental := only_perform ho

theorem getOrCreateTenant_incidental (slug name : String) :
    (getOrCreateTenant slug name).Only Incidental := by
  refine only_bind (incidental_call trivial) fun found => ?_
  cases found with
  | some t => exact only_done _
  | none => exact incidental_call trivial

theorem hashPassword_incidental (plain : String) : (hashPassword cfg plain).Only Incidental :=
  only_bind (incidental_call trivial) fun _ => only_done _

theorem touchLogin_incidental (userId : Uuid) : (touchLogin userId).Only Incidental := by
  refine only_bind (incidental_call (o := .getUser userId) trivial) fun found => ?_
  cases found with
  | some u => exact only_bind (incidental_call (o := .now) trivial) fun _ => incidental_call trivial
  | none => exact only_done _

theorem refreshExpiry_incidental : (refreshExpiry cfg).Only Incidental :=
  only_bind (incidental_call (o := .now) trivial) fun _ => only_done _

theorem getRefresh_incidental (token : String) : (getRefresh cfg token).Only Incidental :=
  incidental_call trivial

theorem usable_incidental (found : Option RefreshToken) : (usable found).Only Incidental := by
  cases found with
  | none => exact only_done _
  | some rt =>
    by_cases hrt : rt.revokedAt ≠ none
    · rw [usable, if_pos hrt]
      exact only_done _
    · rw [usable, if_neg hrt]
      exact only_bind (incidental_call (o := .now) trivial) fun _ => only_done _

theorem revokeRefresh_incidental (token : String) : (revokeRefresh cfg token).Only Incidental := by
  refine only_bind (getRefresh_incidental token) fun found => ?_
  cases found with
  | none => exact only_done _
  | some rt =>
    show (if rt.revokedAt = none then _ else _ : Auth Unit).Only Incidental
    split
    · exact only_bind (incidental_call (o := .now) trivial) fun _ => incidental_call trivial
    · exact only_done _

private theorem buildToken_carries (id tid : Uuid) (typ : TokenType) (ttl : Nat) :
    Incidentally (buildToken cfg id tid typ ttl) fun x => CarriedBy cfg id tid x.1 := by
  refine follows_bind ((incidental_call (o := .now) trivial).mono fun now _ => ?_)
  refine follows_bind ((incidental_call (o := .uuid4) trivial).mono fun jti _ => ?_)
  exact ⟨_, rfl, rfl, rfl⟩

theorem tokenPair_carries (id tid : Uuid) :
    Incidentally (tokenPair cfg id tid) fun x => PairFor cfg id tid x.1 ∧ x.2 = x.1.refreshToken := by
  refine follows_bind ((buildToken_carries id tid .access _).mono fun access haccess => ?_)
  refine follows_bind ((buildToken_carries id tid .refresh _).mono fun refresh hrefresh => ?_)
  exact ⟨⟨haccess, hrefresh⟩, rfl⟩

private theorem decodeToken_decodes (token : String) :
    Incidentally (decodeToken cfg token) fun p => ∃ now, cfg.decode now token = .ok p := by
  refine follows_bind ((incidental_call (o := .now) trivial).mono fun now _ => ?_)
  show Follows _ _ _ (.done (cfg.decode now token))
  cases hdecode : cfg.decode now token with
  | ok p => exact ⟨now, hdecode⟩
  | error e => trivial

/-- Whatever is wrong with the token is answered with 401. -/
theorem refresh_decodes (token : String) :
    Incidentally (tryCatch (decodeToken cfg token) fun _ => throw (.http 401 "invalid token"))
      fun p => ∃ now, cfg.decode now token = .ok p :=
  follows_handle (decodeToken_decodes token) fun _ => trivial

theorem parseUuid_reads (text : String) :
    Incidentally (parseUuid text) fun id => readDecimal text.toList = some id := by
  unfold parseUuid
  cases hread : readDecimal text.toList with
  | some id => exact rfl
  | none => trivial

end Parts

/-! ### The routes -/

/-- What a request knows of the account: nothing yet, the tenant and the row by which it was found, or
that there is none. -/
inductive IssuePhase where
  | start
  | found (tenantId : Uuid) (u : User)
  | lost

/-- The user and the tenant for which a request may issue tokens. -/
def Names (cfg : AuthSettings) : AuthRequest → IssuePhase → Uuid → Uuid → Prop
  | .login _, .found t u, id, tid => id = u.id ∧ tid = t ∧ u.isActive = true
  | .refresh req, _, id, tid => Presents cfg req.refreshToken id tid
  | _, _, _, _ => False

/-- The calls of a request: it reads one user, only a registration inserts one, and a row is inserted for
a token that names the user and the tenant. -/
def issuing (cfg : AuthSettings) (req : AuthRequest) : Protocol AuthCalls ApiErr IssuePhase where
  allows
    | φ, .insertRefresh r => ∃ id tid, Names cfg req φ id tid ∧ RowFor cfg id tid r
    | _, .insertUser _ => ∃ q, req = .register q
    | .start, .selectUser .. => True
    | _, .selectUser .. => False
    | _, _ => True
  replies _ _ _ := True
  next
    | _, .selectUser t _, some u => .found t u
    | _, .selectUser .., none => .lost
    | φ, _, _ => φ
  failed
    | _, .selectUser .., _ => .lost
    | φ, _, _ => φ

/-- A pair of tokens is for the user and the tenant that the request names. -/
def IssueEnds (cfg : AuthSettings) (req : AuthRequest) (φ : IssuePhase)
    (r : Except ApiErr AuthReply) : Prop :=
  ∀ resp, r = .ok (.tokens resp) → ∃ id tid, Names cfg req φ id tid ∧ PairFor cfg id tid resp

section Routes

variable {req : AuthRequest} {φ : IssuePhase} {α β : Type} {post : IssuePhase → Except ApiErr β → Prop}

private theorem issuing_incidental (o : AuthOp) (ho : Incidental o) :
    (issuing cfg req).allows φ o ∧
    (∀ a : o.Resp, (issuing cfg req).replies φ o a → True ∧ (issuing cfg req).next φ o a = φ) ∧
      ∀ e, (issuing cfg req).failed φ o e = φ := by
  cases o <;>
    first | exact ho.elim | exact
    ⟨by cases φ <;> trivial, fun _ _ => ⟨trivial, by cases φ <;> rfl⟩, fun _ => rfl⟩

/-- An incidental part of a route, and the rest. -/
private theorem issuing_bind {p : Auth α} {f : α → Auth β} {known : α → Prop} (hp : Incidentally p known)
    (hf : ∀ a, known a → (f a).Obeys (issuing cfg req) post φ) (herr : ∀ e, post φ (.error e)) :
    (p >>= f).Obeys (issuing cfg req) post φ := by
  refine obeys_bind ((obeys_of_follows issuing_incidental hp).mono fun ψ r hr => ?_)
  obtain ⟨rfl, hpost⟩ := hr
  cases r with
  | ok a => exact hf a (hpost a rfl)
  | error e => exact herr e

private theorem issueEnds_error (φ : IssuePhase) (e : ApiErr) : IssueEnds cfg req φ (.error e) := by
  intro resp hresp
  cases hresp

/-- The row of the new refresh token, the commit and the answer. -/
private theorem issue_obeys {id tid : Uuid} {rest : Auth Unit} (hnames : Names cfg req φ id tid)
    (hrest : rest.Only Incidental) {x : TokenResponse × String}
    (hx : PairFor cfg id tid x.1 ∧ x.2 = x.1.refreshToken) (expiresAt : Nat)
    (userAgent ipAddress : Option String) :
    (saveRefresh cfg id x.2 expiresAt userAgent ipAddress >>= fun _ => rest >>= fun _ =>
      auth .commit >>= fun _ => pure (AuthReply.tokens x.1)).Obeys (issuing cfg req)
        (IssueEnds cfg req) φ := by
  refine obeys_perform_bind ?_ (fun row _ => ?_) (issueEnds_error φ)
  · refine ⟨id, tid, hnames, rfl, x.2, ?_, rfl⟩
    rw [hx.2]
    exact hx.1.refresh
  · refine issuing_bind hrest (fun _ _ => ?_) (issueEnds_error φ)
    refine obeys_perform_bind trivial (fun _ _ => ?_) (issueEnds_error φ)
    intro resp hresp
    obtain rfl : x.1 = resp := AuthReply.tokens.inj (Except.ok.inj hresp)
    exact ⟨id, tid, hnames, hx.1⟩

private theorem login_issues (cfg : AuthSettings) (req : LoginRequest) :
    (login cfg req >>= fun r => pure (AuthReply.tokens r)).Obeys (issuing cfg (.login req))
      (IssueEnds cfg (.login req)) .start := by
  unfold login
  simp only [bind_assoc]
  refine issuing_bind (getOrCreateTenant_incidental _ _) (fun tenant _ => ?_) (issueEnds_error _)
  refine obeys_perform_bind trivial (fun found _ => ?_) (issueEnds_error _)
  cases found with
  | none => exact issueEnds_error _ _
  | some user =>
    cases hverify : cfg.verify user.passwordHash req.password with
    | error e =>
      simp only [verifyPassword, hverify]
      exact issueEnds_error _ _
    | ok ok =>
      simp only [verifyPassword, hverify]
      by_cases hok : ok = true
      · simp only [done_bind, cont_ok, if_pos hok]
        by_cases hactive : user.isActive = true
        · simp only [if_pos hactive, bind_assoc]
          refine issuing_bind (tokenPair_carries user.id tenant.id) (fun x hx => ?_) (issueEnds_error _)
          refine issuing_bind refreshExpiry_incidental (fun expiresAt _ => ?_) (issueEnds_error _)
          have hnames : Names cfg (.login req) (.found tenant.id user) user.id tenant.id :=
            ⟨rfl, rfl, hactive⟩
          exact issue_obeys hnames (touchLogin_incidental user.id) hx expiresAt _ _
        · simp only [if_neg hactive]
          exact issueEnds_error _ _
      · simp only [done_bind, cont_ok, if_neg hok]
        exact issueEnds_error _ _

private theorem refresh_issues (cfg : AuthSettings) (req : RefreshRequest) :
    (refresh cfg req >>= fun r => pure (AuthReply.tokens r)).Obeys
    (issuing cfg (.refresh req)) (IssueEnds cfg (.refresh req)) .start := by
  unfold refresh
  simp only [bind_assoc]
  refine issuing_bind (refresh_decodes req.refreshToken) (fun payload hpayload => ?_) (issueEnds_error _)
  obtain ⟨now, hpayload⟩ := hpayload
  by_cases htyp : payload.typ ≠ .refresh
  · simp only [if_pos htyp]
    exact issueEnds_error _ _
  simp only [if_neg htyp, bind_assoc]
  refine issuing_bind (getRefresh_incidental req.refreshToken) (fun rt _ => ?_) (issueEnds_error _)
  refine issuing_bind (usable_incidental rt) (fun ok _ => ?_) (issueEnds_error _)
  cases ok with
  | false => exact issueEnds_error _ _
  | true =>
    simp only [if_pos, rotate, bind_assoc]
    refine issuing_bind (revokeRefresh_incidental req.refreshToken) (fun _ _ => ?_) (issueEnds_error _)
    refine issuing_bind (parseUuid_reads payload.sub) (fun id hid => ?_) (issueEnds_error _)
    refine issuing_bind (parseUuid_reads payload.tid) (fun tid htid => ?_) (issueEnds_error _)
    refine issuing_bind (tokenPair_carries id tid) (fun x hx => ?_) (issueEnds_error _)
    refine issuing_bind refreshExpiry_incidental (fun expiresAt _ => ?_) (issueEnds_error _)
    have hnames : Names cfg (.refresh req) .start id tid := ⟨now, payload, hpayload, hid, htid⟩
    have hnothing : (pure () : Auth Unit).Only Incidental := only_done _
    exact issue_obeys hnames hnothing hx expiresAt none none

private theorem register_issues (cfg : AuthSettings) (req : RegisterRequest) :
    (register cfg req >>= fun u => pure (AuthReply.user u)).Obeys
    (issuing cfg (.register req)) (IssueEnds cfg (.register req)) .start := by
  unfold register
  simp only [bind_assoc]
  refine issuing_bind (getOrCreateTenant_incidental _ _) (fun tenant _ => ?_) (issueEnds_error _)
  refine obeys_perform_bind trivial (fun found _ => ?_) (issueEnds_error _)
  cases found with
  | some user => exact issueEnds_error _ _
  | none =>
    simp only [bind_assoc]
    refine issuing_bind (hashPassword_incidental _) (fun hash _ => ?_) (issueEnds_error _)
    refine obeys_perform_bind ⟨req, rfl⟩ (fun user _ => ?_) (issueEnds_error _)
    refine obeys_perform_bind trivial (fun _ _ => ?_) (issueEnds_error _)
    intro resp hresp
    cases hresp

private theorem logout_issues (cfg : AuthSettings) (req : RefreshRequest) :
    (logout cfg req >>= fun _ => pure AuthReply.noContent).Obeys
    (issuing cfg (.logout req)) (IssueEnds cfg (.logout req)) .start := by
  unfold logout
  simp only [bind_assoc]
  refine issuing_bind (revokeRefresh_incidental req.refreshToken) (fun _ _ => ?_) (issueEnds_error _)
  refine obeys_perform_bind trivial (fun _ _ => ?_) (issueEnds_error _)
  intro resp hresp
  cases hresp

/-- Every request issues tokens only for whom it names. -/
theorem program_issues (cfg : AuthSettings) (req : AuthRequest) :
    (req.program cfg).Obeys (issuing cfg req) (IssueEnds cfg req) .start := by
  cases req with
  | register r =>
    rw [AuthRequest.program, map_eq_pure_bind]
    exact register_issues cfg r
  | login r =>
    rw [AuthRequest.program, map_eq_pure_bind]
    exact login_issues cfg r
  | refresh r =>
    rw [AuthRequest.program, map_eq_pure_bind]
    exact refresh_issues cfg r
  | logout r =>
    rw [AuthRequest.program, map_eq_pure_bind]
    exact logout_issues cfg r

end Routes

end LegalRag
