import LegalRag.Db.Models
import LegalRag.Db.Table

/-!
# Tenants, users and refresh tokens

The rows of `src/db/models/user.py`, with the columns that the auth routes read or write.
-/

namespace LegalRag

open Relational

structure Tenant where
  id : Uuid
  name : String
  slug : String
  deriving DecidableEq, Repr

/-- The arguments of `UserRepo.create`. -/
structure NewUser where
  tenantId : Uuid
  email : String
  passwordHash : String
  displayName : Option String
  deriving DecidableEq, Repr

structure User extends NewUser where
  id : Uuid
  isActive : Bool
  lastLoginAt : Option Nat
  deriving DecidableEq, Repr

/-- The row that `UserRepo.save_refresh` inserts. -/
structure NewRefreshToken where
  userId : Uuid
  tokenHash : String
  expiresAt : Nat
  userAgent : Option String
  ipAddress : Option String
  deriving DecidableEq, Repr

structure RefreshToken extends NewRefreshToken where
  id : Uuid
  revokedAt : Option Nat
  deriving DecidableEq, Repr

/-- `unique=True` of `Tenant.slug`. -/
def Tenant.key (t : Tenant) : String := t.slug

/-- `uq_user_tenant_email`. -/
def User.key (u : User) : Uuid × String := (u.tenantId, u.email)

/-- `unique=True` of `RefreshToken.token_hash`. -/
def RefreshToken.key (r : RefreshToken) : String := r.tokenHash

/-- The values fit the lengths of their columns. -/
def NewRefreshToken.fits (r : NewRefreshToken) : Bool :=
  r.tokenHash.length ≤ 255 && r.userAgent.all (·.length ≤ 512) && r.ipAddress.all (·.length ≤ 45)

end LegalRag
