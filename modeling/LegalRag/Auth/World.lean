import LegalRag.Auth.Routes
import LegalRag.Calls.Service

/-!
# The database behind the auth routes

Every request has one session and one READ COMMITTED transaction.  A SELECT sees the rows committed so far
and those of its own session, but a row that the session has already loaded keeps the attributes of its
object.  What a session inserts and assigns becomes visible at its commit, all of it or nothing.
-/

namespace LegalRag

open Calls Relational

/-- A session: the refresh tokens it has loaded, with their attributes as they stand in the session, and
what it has inserted and assigned since it began. -/
structure AuthSession where
  tokens : List RefreshToken
  revoked : List (Uuid × Nat)
  lastLogins : List (Uuid × Nat)
  newTenants : List Tenant
  newUsers : List User
  newTokens : List RefreshToken

def AuthSession.fresh : AuthSession := ⟨[], [], [], [], [], []⟩

structure AuthWorld where
  clock : Nat
  nextUuid : Uuid
  tenants : Table Tenant.key
  users : Table User.key
  refreshTokens : Table RefreshToken.key
  sessions : Nat → AuthSession

/-- `UPDATE refresh_tokens SET revoked_at = .. WHERE id = ..`, for every assignment. -/
def RefreshToken.assign (revoked : List (Uuid × Nat)) (r : RefreshToken) : RefreshToken :=
  { r with revokedAt := (revoked.lookup r.id).or r.revokedAt }

/-- `UPDATE users SET last_login_at = .. WHERE id = ..`, for every assignment. -/
def User.assign (lastLogins : List (Uuid × Nat)) (u : User) : User :=
  { u with lastLoginAt := (lastLogins.lookup u.id).or u.lastLoginAt }

/-- The object of a row: the one in the session's identity map, if it is there. -/
def AuthSession.object (s : AuthSession) (row : RefreshToken) : RefreshToken :=
  (s.tokens.find? fun r => r.id = row.id).getD row

/-- The session after it has loaded a row. -/
def AuthSession.load (s : AuthSession) (row : RefreshToken) : AuthSession :=
  if s.tokens.any fun r => r.id = row.id then s else { s with tokens := row :: s.tokens }

/-- The session after an assignment to `revoked_at`. -/
def AuthSession.revoke (s : AuthSession) (id : Uuid) (t : Nat) : AuthSession :=
  { s with tokens := s.tokens.map (RefreshToken.assign [(id, t)]), revoked := (id, t) :: s.revoked }

namespace AuthWorld

variable (pid : Nat)

/-- A request begins with a new session. -/
def openSession (w : AuthWorld) : AuthWorld :=
  { w with sessions := Function.update w.sessions pid AuthSession.fresh }

/-- Change the session of a request. -/
def setSession (s : AuthSession) (w : AuthWorld) : AuthWorld :=
  { w with sessions := Function.update w.sessions pid s }

/-- The row that a SELECT by token hash finds. -/
def findToken (hash : String) (w : AuthWorld) : Option RefreshToken :=
  (w.refreshTokens.rows ++ (w.sessions pid).newTokens).find? fun r => r.key = hash

/-- The tables with what a session has inserted and assigned; `none` if a unique constraint is violated.
-/
def applyCommit (s : AuthSession) (w : AuthWorld) : Option AuthWorld := do
  let tenants ← w.tenants.insert? s.newTenants
  let users ← (w.users.update (User.assign s.lastLogins) fun _ => rfl).insert? s.newUsers
  let refreshTokens ← (w.refreshTokens.update (RefreshToken.assign s.revoked) fun _ => rfl).insert?
    s.newTokens
  return { w with tenants := tenants, users := users, refreshTokens := refreshTokens }

end AuthWorld

/-- The error of a statement that violates a constraint. -/
def integrityError (constraint : String) : ApiErr := .other constraint

/-- The reply to a call of request `pid`, and what it changes. -/
def authReply (pid : Nat) : (o : AuthCalls.Op) → AuthWorld → Except ApiErr (AuthCalls.Resp o) × AuthWorld
  | .now, w => (.ok w.clock, w)
  | .uuid4, w => (.ok w.nextUuid, { w with nextUuid := w.nextUuid + 1 })
  | .salt, w => (.ok w.nextUuid, { w with nextUuid := w.nextUuid + 1 })
  | .selectTenant slug, w =>
    (.ok ((w.tenants.rows ++ (w.sessions pid).newTenants).find? fun t => t.key = slug), w)
  | .insertTenant name slug, w =>
    let s := w.sessions pid
    let row : Tenant := ⟨w.nextUuid, name, slug⟩
    match w.tenants.insert? (s.newTenants ++ [row]) with
    | none => (.error (integrityError "tenants_slug_key"), w)
    | some _ => (.ok row, { w.setSession pid { s with newTenants := s.newTenants ++ [row] } with
        nextUuid := w.nextUuid + 1 })
  | .selectUser tenantId email, w =>
    (.ok ((w.users.rows ++ (w.sessions pid).newUsers).find? fun u => u.key = (tenantId, email)), w)
  | .getUser id, w => (.ok ((w.users.rows ++ (w.sessions pid).newUsers).find? fun u => u.id = id), w)
  | .insertUser u, w =>
    let s := w.sessions pid
    let row : User := { u with id := w.nextUuid, isActive := true, lastLoginAt := none }
    match w.users.insert? (s.newUsers ++ [row]) with
    | none => (.error (integrityError "uq_user_tenant_email"), w)
    | some _ => (.ok row, { w.setSession pid { s with newUsers := s.newUsers ++ [row] } with
        nextUuid := w.nextUuid + 1 })
  | .setLastLoginAt id t, w =>
    let s := w.sessions pid
    (.ok (), w.setSession pid { s with lastLogins := (id, t) :: s.lastLogins })
  | .selectRefresh hash, w =>
    let s := w.sessions pid
    match w.findToken pid hash with
    | none => (.ok none, w)
    | some row => (.ok (some (s.object row)), w.setSession pid (s.load row))
  | .insertRefresh r, w =>
    let s := w.sessions pid
    let row : RefreshToken := { r with id := w.nextUuid, revokedAt := none }
    if ¬ r.fits then (.error (integrityError "value too long"), w)
    else if ¬ (w.users.rows ++ s.newUsers).any fun u => u.id = r.userId then
      (.error (integrityError "refresh_tokens_user_id_fkey"), w)
    else match w.refreshTokens.insert? (s.newTokens ++ [row]) with
      | none => (.error (integrityError "refresh_tokens_token_hash_key"), w)
      | some _ => (.ok row, { w.setSession pid { s with newTokens := s.newTokens ++ [row] } with
          nextUuid := w.nextUuid + 1 })
  | .setRevokedAt id t, w => (.ok (), w.setSession pid ((w.sessions pid).revoke id t))
  | .commit, w =>
    -- an INSERT that waited for another transaction fails here, if that one has committed the same key
    match w.applyCommit (w.sessions pid) with
    | none => (.error (integrityError "unique"), w.setSession pid AuthSession.fresh)
    | some w' => (.ok (), w'.setSession pid { AuthSession.fresh with tokens := (w.sessions pid).tokens })

/-- The requests of the auth routes. -/
inductive AuthRequest where
  | register (req : RegisterRequest)
  | login (req : LoginRequest)
  | refresh (req : RefreshRequest)
  | logout (req : RefreshRequest)
  deriving DecidableEq, Repr

inductive AuthReply where
  | user (u : UserOut)
  | tokens (r : TokenResponse)
  | noContent
  deriving DecidableEq, Repr

/-- The program of a request. -/
def AuthRequest.program (cfg : AuthSettings) : AuthRequest → Auth AuthReply
  | .register req => AuthReply.user <$> LegalRag.register cfg req
  | .login req => AuthReply.tokens <$> LegalRag.login cfg req
  | .refresh req => AuthReply.tokens <$> LegalRag.refresh cfg req
  | .logout req => (fun _ => AuthReply.noContent) <$> LegalRag.logout cfg req

/-- What happens besides the requests: time passes, and an administrator changes `users.is_active`. -/
inductive AuthEnv where
  | pass (d : Nat)
  | setActive (id : Uuid) (active : Bool)
  deriving DecidableEq, Repr

/-- `UPDATE users SET is_active = .. WHERE id = ..`. -/
def User.setActive (id : Uuid) (active : Bool) (u : User) : User :=
  if u.id = id then { u with isActive := active } else u

theorem User.setActive_key (id : Uuid) (active : Bool) (u : User) : (u.setActive id active).key = u.key := by
  unfold User.setActive
  split <;> rfl

def AuthEnv.step : AuthEnv → AuthWorld → Option AuthWorld
  | .pass d, w => some { w with clock := w.clock + d }
  | .setActive id active, w =>
    some { w with users := w.users.update (User.setActive id active) (User.setActive_key id active) }

/-- The auth routes, any number of requests at a time. -/
def authService (cfg : AuthSettings) : Service AuthCalls ApiErr AuthWorld AuthRequest AuthEnv AuthReply where
  program := AuthRequest.program cfg
  enter := AuthWorld.openSession
  handle pid _ := authReply pid
  env := AuthEnv.step

abbrev AuthState := Service.State AuthCalls ApiErr AuthWorld AuthRequest AuthReply

abbrev AuthLabel := Service.Label ApiErr AuthRequest AuthEnv

end LegalRag
