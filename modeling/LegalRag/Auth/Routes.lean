import LegalRag.Auth.Security

/-!
# The auth routes

`UserRepo` of `src/db/repositories/user.py`, and `register`, `login`, `refresh` and `logout` of
`src/api/routes/auth.py`.
-/

namespace LegalRag

open Calls

structure RegisterRequest where
  email : String
  password : String
  displayName : Option String
  tenantSlug : String
  deriving DecidableEq, Repr

/-- `LoginRequest`, with the header and the address that the route takes from the HTTP request. -/
structure LoginRequest where
  email : String
  password : String
  tenantSlug : String
  userAgent : Option String
  clientHost : Option String
  deriving DecidableEq, Repr

structure RefreshRequest where
  refreshToken : String
  deriving DecidableEq, Repr

structure TokenResponse where
  accessToken : String
  refreshToken : String
  expiresIn : Nat
  tokenType : String := "Bearer"
  deriving DecidableEq, Repr

structure UserOut where
  id : Uuid
  email : String
  displayName : Option String
  tenantId : Uuid
  deriving DecidableEq, Repr

variable (cfg : AuthSettings)

/-! ### `UserRepo` -/

/-- `get_or_create_tenant`. -/
def getOrCreateTenant (slug name : String) : Auth Tenant := do
  match ← auth (.selectTenant slug) with
  | some t => return t
  | none => auth (.insertTenant name slug)

/-- `by_email`. -/
def byEmail (tenantId : Uuid) (email : String) : Auth (Option User) :=
  auth (.selectUser tenantId (cfg.lower email))

/-- `create`. -/
def createUser (tenantId : Uuid) (email passwordHash : String) (displayName : Option String) : Auth User :=
  auth (.insertUser ⟨tenantId, cfg.lower email, passwordHash, displayName⟩)

/-- `touch_login`. -/
def touchLogin (userId : Uuid) : Auth Unit := do
  match ← auth (.getUser userId) with
  | some u =>
    let now ← auth .now
    auth (.setLastLoginAt u.id now)
  | none => return ()

/-- `save_refresh`. -/
def saveRefresh (userId : Uuid) (token : String) (expiresAt : Nat) (userAgent ipAddress : Option String) :
    Auth RefreshToken :=
  auth (.insertRefresh ⟨userId, cfg.sha256 token, expiresAt, userAgent, ipAddress⟩)

/-- `get_refresh`. -/
def getRefresh (token : String) : Auth (Option RefreshToken) := auth (.selectRefresh (cfg.sha256 token))

/-- `revoke_refresh`. -/
def revokeRefresh (token : String) : Auth Unit := do
  match ← getRefresh cfg token with
  | some rt =>
    if rt.revokedAt = none then
      let now ← auth .now
      auth (.setRevokedAt rt.id now)
    else return ()
  | none => return ()

/-! ### The routes -/

/-- `_token_pair`: the response, and the refresh token in it. -/
def tokenPair (userId tenantId : Uuid) : Auth (TokenResponse × String) := do
  let (access, _) ← issueAccess cfg userId tenantId
  let (refresh, _) ← issueRefresh cfg userId tenantId
  return ({ accessToken := access, refreshToken := refresh, expiresIn := cfg.jwtAccessTtlMin * 60 }, refresh)

/-- `datetime.now(UTC)` and the lifetime of a refresh token. -/
def refreshExpiry : Auth Nat := do
  let now ← auth .now
  return now + cfg.jwtRefreshTtlDays * 86400 * second

/-- `register`. -/
def register (req : RegisterRequest) : Auth UserOut := do
  let tenant ← getOrCreateTenant req.tenantSlug req.tenantSlug
  match ← byEmail cfg tenant.id req.email with
  | some _ => throw (.http 409 "email already registered")
  | none =>
    let hash ← hashPassword cfg req.password
    let user ← createUser cfg tenant.id req.email hash req.displayName
    auth .commit
    return ⟨user.id, user.email, user.displayName, tenant.id⟩

/-- `login`. -/
def login (req : LoginRequest) : Auth TokenResponse := do
  let tenant ← getOrCreateTenant req.tenantSlug req.tenantSlug
  match ← byEmail cfg tenant.id req.email with
  | none => throw (.http 401 "invalid credentials")
  | some user =>
    if ← verifyPassword cfg req.password user.passwordHash then
      if user.isActive then
        let (tokens, refresh) ← tokenPair cfg user.id tenant.id
        let expiresAt ← refreshExpiry cfg
        let _ ← saveRefresh cfg user.id refresh expiresAt req.userAgent req.clientHost
        touchLogin user.id
        auth .commit
        return tokens
      else throw (.http 403 "inactive user")
    else throw (.http 401 "invalid credentials")

/-- The check of `refresh`: the row is there, not revoked and not expired; the clock is read last. -/
def usable : Option RefreshToken → Auth Bool
  | none => return false
  | some rt =>
    if rt.revokedAt ≠ none then return false
    else do
      let now ← auth .now
      return ¬ rt.expiresAt < now

/-- The rest of `refresh`, once the token has been found usable. -/
def rotate (req : RefreshRequest) (payload : TokenPayload) : Auth TokenResponse := do
  revokeRefresh cfg req.refreshToken
  let userId ← parseUuid payload.sub
  let tenantId ← parseUuid payload.tid
  let (tokens, newRefresh) ← tokenPair cfg userId tenantId
  let expiresAt ← refreshExpiry cfg
  let _ ← saveRefresh cfg userId newRefresh expiresAt none none
  auth .commit
  return tokens

/-- `refresh`. -/
def refresh (req : RefreshRequest) : Auth TokenResponse := do
  let payload ← tryCatch (decodeToken cfg req.refreshToken) fun _ => throw (.http 401 "invalid token")
  if payload.typ ≠ .refresh then throw (.http 401 "wrong token type")
  else
    let rt ← getRefresh cfg req.refreshToken
    if ← usable rt then rotate cfg req payload
    else throw (.http 401 "refresh revoked or expired")

/-- `logout`. -/
def logout (req : RefreshRequest) : Auth Unit := do
  revokeRefresh cfg req.refreshToken
  auth .commit

end LegalRag
