import LegalRag.Auth.Calls

/-!
# Tokens and passwords

`src/core/security.py`.  Signing and checking a JWT, hashing with SHA-256 and argon2, and lowering the
case of a text are parameters (`AuthSettings`); what a token carries, and from when to when, is computed
here.  Times are in microseconds.
-/

namespace LegalRag

open Calls

inductive TokenType where
  | access
  | refresh
  deriving DecidableEq, Repr

/-- `TokenPayload`. -/
structure TokenPayload where
  sub : String
  tid : String
  typ : TokenType
  jti : String
  exp : Nat
  iat : Nat
  deriving DecidableEq, Repr

/-- The settings of the auth routes, and the libraries they use. -/
structure AuthSettings where
  jwtAccessTtlMin : Nat
  jwtRefreshTtlDays : Nat
  /-- `jwt.encode` with the secret key. -/
  encode : TokenPayload → String
  /-- `TokenPayload(**jwt.decode(token, ..))` at a time: an exception for a bad signature, an expired
  token, or a payload of another shape. -/
  decode : Nat → String → Except ApiErr TokenPayload
  sha256 : String → String
  argon2 : Nat → String → String
  /-- `PasswordHasher.verify`, where a mismatch is `false`. -/
  verify : String → String → Except ApiErr Bool
  lower : String → String

/-- One second. -/
def second : Nat := 1000000

variable (cfg : AuthSettings)

/-- `hash_password`. -/
def hashPassword (plain : String) : Auth String := do
  let salt ← auth .salt
  return cfg.argon2 salt plain

/-- `verify_password`. -/
def verifyPassword (plain hashed : String) : Auth Bool := .done (cfg.verify hashed plain)

/-- `_build`. -/
def buildToken (userId tenantId : Uuid) (typ : TokenType) (ttl : Nat) : Auth (String × TokenPayload) := do
  let now ← auth .now
  let jti ← auth .uuid4
  let payload : TokenPayload :=
    { sub := toString userId
      tid := toString tenantId
      typ := typ
      jti := toString jti
      iat := now / second
      exp := (now + ttl) / second }
  return (cfg.encode payload, payload)

/-- `issue_access`. -/
def issueAccess (userId tenantId : Uuid) : Auth (String × TokenPayload) :=
  buildToken cfg userId tenantId .access (cfg.jwtAccessTtlMin * 60 * second)

/-- `issue_refresh`. -/
def issueRefresh (userId tenantId : Uuid) : Auth (String × TokenPayload) :=
  buildToken cfg userId tenantId .refresh (cfg.jwtRefreshTtlDays * 86400 * second)

/-- `decode_token`. -/
def decodeToken (token : String) : Auth TokenPayload := do
  let now ← auth .now
  .done (cfg.decode now token)

/-- The number that digits stand for. -/
def readDecimal (digits : List Char) : Option Nat :=
  if digits ≠ [] ∧ digits.all Char.isDigit then
    some (digits.foldl (fun n c => 10 * n + (c.toNat - '0'.toNat)) 0)
  else none

/-- `uuid.UUID(text)`: the inverse of `str(id)`. -/
def parseUuid (text : String) : Auth Uuid :=
  match readDecimal text.toList with
  | some id => pure id
  | none => throw (.other "badly formed hexadecimal UUID string")

end LegalRag
