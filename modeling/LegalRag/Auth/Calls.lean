import LegalRag.Api.Calls
import LegalRag.Db.Users

/-!
# What an auth request calls

The clock, random values and the statements of one Postgres session.  An assignment to an attribute of a
loaded row is a call too: it changes the session, and the database at the commit.
-/

namespace LegalRag

open Calls

inductive AuthOp where
  | now
  | uuid4
  | salt
  | selectTenant (slug : String)
  | insertTenant (name slug : String)
  | selectUser (tenantId : Uuid) (email : String)
  | getUser (id : Uuid)
  | insertUser (u : NewUser)
  | setLastLoginAt (id : Uuid) (t : Nat)
  | selectRefresh (hash : String)
  | insertRefresh (r : NewRefreshToken)
  | setRevokedAt (id : Uuid) (t : Nat)
  | commit
  deriving DecidableEq, Repr

@[reducible] def AuthOp.Resp : AuthOp → Type
  | .now | .uuid4 | .salt => Nat
  | .selectTenant _ => Option Tenant
  | .insertTenant .. => Tenant
  | .selectUser .. | .getUser _ => Option User
  | .insertUser _ => User
  | .selectRefresh _ => Option RefreshToken
  | .insertRefresh _ => RefreshToken
  | .setLastLoginAt .. | .setRevokedAt .. | .commit => Unit

abbrev AuthCalls : Iface := ⟨AuthOp, AuthOp.Resp⟩

/-- A program of an auth request. -/
abbrev Auth (α : Type) := Prog AuthCalls ApiErr α

/-- A call of an auth request. -/
abbrev auth (o : AuthCalls.Op) : Auth (AuthCalls.Resp o) := Prog.perform o

end LegalRag
