import LegalRag.Auth.Phases

/-!
# Users and the rows of their tokens, call by call

What a call of an auth request does to the users and to the refresh tokens, committed and pending: users
stay, with their id and their tenant; a row of the table was there before or was pending in the session
that commits; and no two users, wherever they are, have one id (`authReply_ids`).
-/

namespace LegalRag

open Calls Prog Service Relational

namespace AuthWorld

/-- There is a user with this id and this tenant. -/
def HasUser (id tid : Uuid) (w : AuthWorld) : Prop := ∃ u ∈ w.users.rows, u.id = id ∧ u.tenantId = tid

/-- The ids of the users in the table, and of those that a session has inserted. -/
def userIdsAt (w : AuthWorld) : Option Nat → List Uuid
  | none => w.users.rows.map User.id
  | some pid => (w.sessions pid).newUsers.map User.id

private theorem userIdsAt_setSession (pid : Nat) (s : AuthSession) (w : AuthWorld) :
    (w.setSession pid s).userIdsAt = Function.update w.userIdsAt (some pid) (s.newUsers.map User.id) := by
  funext place
  cases place with
  | none => simp [userIdsAt, setSession]
  | some q =>
    by_cases hq : q = pid
    · subst hq
      simp [userIdsAt, setSession]
    · rw [Function.update_of_ne (by simpa using hq)]
      simp [userIdsAt, setSession, Function.update_of_ne hq]

/-- A change of a session that inserts no user. -/
private theorem userIdsAt_setSession_of_eq {pid : Nat} {s : AuthSession} {w : AuthWorld}
    (h : s.newUsers = (w.sessions pid).newUsers) : (w.setSession pid s).userIdsAt = w.userIdsAt := by
  rw [userIdsAt_setSession, h]
  exact Function.update_eq_self _ _

end AuthWorld

/-! ### The commit -/

private theorem applyCommit_users {s : AuthSession} {w w' : AuthWorld} (h : w.applyCommit s = some w') :
    w'.users.rows = w.users.rows.map (User.assign s.lastLogins) ++ s.newUsers ∧ w'.nextUuid = w.nextUuid := by
  simp only [AuthWorld.applyCommit, Option.bind_eq_bind, Option.bind_eq_some_iff, Option.pure_def,
    Option.some.injEq] at h
  obtain ⟨tenants, -, users, husers, tokens, -, rfl⟩ := h
  exact ⟨Table.rows_insert? husers, rfl⟩

private theorem applyCommit_hasUser {s : AuthSession} {w w' : AuthWorld} (h : w.applyCommit s = some w')
    {id tid : Uuid} (hu : w.HasUser id tid) : w'.HasUser id tid := by
  obtain ⟨u, hm, hid, htid⟩ := hu
  refine ⟨u.assign s.lastLogins, ?_, hid, htid⟩
  rw [(applyCommit_users h).1]
  exact List.mem_append_left _ (List.mem_map_of_mem hm)

/-- The ids of the users that a session has inserted move to the table. -/
private theorem applyCommit_ids {pid : Nat} {w w' : AuthWorld}
    (h : w.applyCommit (w.sessions pid) = some w') :
    w'.userIdsAt = Function.update w.userIdsAt none (w.userIdsAt none ++ w.userIdsAt (some pid)) := by
  funext place
  cases place with
  | none =>
    have hassign : ∀ (logins : List (Uuid × Nat)), (User.id ∘ User.assign logins) = User.id :=
      fun _ => rfl
    simp [AuthWorld.userIdsAt, (applyCommit_users h).1, hassign]
  | some q => simp [AuthWorld.userIdsAt, (applyCommit_rows h).2]

/-! ### The calls -/

/-- Users stay. -/
theorem authReply_hasUser (pid : Nat) (o : AuthOp) (w : AuthWorld) {id tid : Uuid} (hu : w.HasUser id tid) :
    (authReply pid o w).2.HasUser id tid := by
  cases o with
  | commit =>
    cases hc : w.applyCommit (w.sessions pid) with
    | none =>
      simp only [authReply, hc]
      exact hu
    | some w' =>
      simp only [authReply, hc]
      exact applyCommit_hasUser hc hu
  | insertTenant name slug =>
    simp only [authReply]
    split <;> exact hu
  | insertUser u =>
    simp only [authReply]
    split <;> exact hu
  | selectRefresh hash =>
    simp only [authReply]
    split <;> exact hu
  | insertRefresh r =>
    simp only [authReply]
    split
    · exact hu
    · split
      · exact hu
      · split <;> exact hu
  | _ => exact hu

/-- A row of the table was there before, or is one that the session has inserted, except for its
`revoked_at`. -/
theorem authReply_rows {pid : Nat} {o : AuthOp} {w : AuthWorld} {r : RefreshToken}
    (hr : r ∈ (authReply pid o w).2.refreshTokens.rows) :
    ∃ r₀, r₀.toNewRefreshToken = r.toNewRefreshToken ∧
      (r₀ ∈ w.refreshTokens.rows ∨ r₀ ∈ (w.sessions pid).newTokens) := by
  by_cases ho : o = .commit
  · subst ho
    cases hc : w.applyCommit (w.sessions pid) with
    | none =>
      simp only [authReply, hc] at hr
      exact ⟨r, rfl, Or.inl hr⟩
    | some w' =>
      simp only [authReply, hc, AuthWorld.setSession] at hr
      rw [(applyCommit_rows hc).1, List.mem_append] at hr
      rcases hr with hr | hr
      · obtain ⟨r₀, hr₀, rfl⟩ := List.mem_map.mp hr
        exact ⟨r₀, rfl, Or.inl hr₀⟩
      · exact ⟨r, rfl, Or.inr hr⟩
  · rw [authReply_tokens pid ho] at hr
    exact ⟨r, rfl, Or.inl hr⟩

/-- A row that the session has inserted was inserted before, or is now. -/
theorem authReply_newTokens {pid : Nat} {o : AuthOp} {w : AuthWorld} {r : RefreshToken}
    (hr : r ∈ ((authReply pid o w).2.sessions pid).newTokens) :
    r ∈ (w.sessions pid).newTokens ∨ o = .insertRefresh r.toNewRefreshToken := by
  cases o with
  | commit =>
    cases hc : w.applyCommit (w.sessions pid) with
    | none =>
      simp only [authReply, hc, AuthWorld.setSession, Function.update_self] at hr
      cases hr
    | some w' =>
      simp only [authReply, hc, AuthWorld.setSession, Function.update_self] at hr
      cases hr
  | insertTenant name slug =>
    simp only [authReply] at hr
    split at hr
    · exact Or.inl hr
    · simp only [AuthWorld.setSession, Function.update_self] at hr
      exact Or.inl hr
  | insertUser u =>
    simp only [authReply] at hr
    split at hr
    · exact Or.inl hr
    · simp only [AuthWorld.setSession, Function.update_self] at hr
      exact Or.inl hr
  | selectRefresh hash =>
    simp only [authReply] at hr
    split at hr
    · exact Or.inl hr
    · simp only [AuthWorld.setSession, Function.update_self, AuthSession.load] at hr
      split at hr <;> exact Or.inl hr
  | insertRefresh n =>
    simp only [authReply] at hr
    split at hr
    · exact Or.inl hr
    · split at hr
      · exact Or.inl hr
      · split at hr
        · exact Or.inl hr
        · simp only [AuthWorld.setSession, Function.update_self, List.mem_append, List.mem_singleton] at hr
          rcases hr with hr | rfl
          · exact Or.inl hr
          · exact Or.inr rfl
  | setLastLoginAt id t =>
    simp only [authReply, AuthWorld.setSession, Function.update_self] at hr
    exact Or.inl hr
  | setRevokedAt id t =>
    simp only [authReply, AuthWorld.setSession, Function.update_self, AuthSession.revoke] at hr
    exact Or.inl hr
  | _ => exact Or.inl hr

/-- How a call of the request `pid` changes the ids of the users. -/
inductive IdsEffect (pid : Nat) (w w' : AuthWorld) (o : AuthOp) : Prop
  | same (ids : w'.userIdsAt = w.userIdsAt) (uuid : w.nextUuid ≤ w'.nextUuid)
  | insert (n : NewUser) (op : o = .insertUser n)
      (ids : w'.userIdsAt = Function.update w.userIdsAt (some pid) (w.userIdsAt (some pid) ++ [w.nextUuid]))
      (uuid : w'.nextUuid = w.nextUuid + 1)
  | commit (ids : w'.userIdsAt = Function.update (Function.update w.userIdsAt none
      (w.userIdsAt none ++ w.userIdsAt (some pid))) (some pid) []) (uuid : w'.nextUuid = w.nextUuid)
  | drop (ids : w'.userIdsAt = Function.update w.userIdsAt (some pid) []) (uuid : w'.nextUuid = w.nextUuid)

/-- A change of a session that inserts no user, and perhaps takes an id for another row. -/
private theorem idsEffect_same {pid : Nat} {s : AuthSession} {w : AuthWorld} {o : AuthOp} {n : Nat}
    (h : s.newUsers = (w.sessions pid).newUsers) (hn : w.nextUuid ≤ n) :
    IdsEffect pid w { w.setSession pid s with nextUuid := n } o :=
  .same (AuthWorld.userIdsAt_setSession_of_eq h) hn

/-- Only the INSERT of a user gives an id to a user, the next one. -/
theorem authReply_ids (pid : Nat) (o : AuthOp) (w : AuthWorld) : IdsEffect pid w (authReply pid o w).2 o := by
  have hsucc : w.nextUuid ≤ w.nextUuid + 1 := Nat.le_succ _
  cases o with
  | commit =>
    cases hc : w.applyCommit (w.sessions pid) with
    | none =>
      simp only [authReply, hc]
      exact .drop (AuthWorld.userIdsAt_setSession pid _ w) rfl
    | some w' =>
      simp only [authReply, hc]
      refine .commit ?_ (applyCommit_users hc).2
      rw [AuthWorld.userIdsAt_setSession, applyCommit_ids hc]
      rfl
  | insertUser u =>
    simp only [authReply]
    split
    · exact .same rfl (Nat.le_refl _)
    · refine .insert u rfl ?_ rfl
      refine (AuthWorld.userIdsAt_setSession pid _ w).trans ?_
      rw [List.map_append]
      rfl
  | insertTenant name slug =>
    simp only [authReply]
    split
    · exact .same rfl (Nat.le_refl _)
    · exact idsEffect_same rfl hsucc
  | selectRefresh hash =>
    simp only [authReply]
    split
    · exact .same rfl (Nat.le_refl _)
    · refine .same (AuthWorld.userIdsAt_setSession_of_eq ?_) (Nat.le_refl _)
      unfold AuthSession.load
      split <;> rfl
  | insertRefresh r =>
    simp only [authReply]
    split
    · exact .same rfl (Nat.le_refl _)
    · split
      · exact .same rfl (Nat.le_refl _)
      · split
        · exact .same rfl (Nat.le_refl _)
        · exact idsEffect_same rfl hsucc
  | setLastLoginAt id t => exact .same (AuthWorld.userIdsAt_setSession_of_eq rfl) (Nat.le_refl _)
  | setRevokedAt id t => exact .same (AuthWorld.userIdsAt_setSession_of_eq rfl) (Nat.le_refl _)
  | uuid4 => exact .same rfl hsucc
  | salt => exact .same rfl hsucc
  | _ => exact .same rfl (Nat.le_refl _)

/-- Users keep apart ids. -/
theorem IdsEffect.apart {pid : Nat} {w w' : AuthWorld} {o : AuthOp} (heff : IdsEffect pid w w' o)
    (h : Relational.Apart w.userIdsAt w.nextUuid) : Relational.Apart w'.userIdsAt w'.nextUuid := by
  cases heff with
  | same ids uuid =>
    rw [ids]
    exact h.mono uuid
  | insert n op ids uuid =>
    rw [ids, uuid]
    exact h.insert _
  | commit ids uuid =>
    rw [ids, uuid]
    exact h.move (by simp)
  | drop ids uuid =>
    rw [ids, uuid]
    exact h.clear _

/-- A session that has inserted no user, after a call that is not an INSERT of one. -/
theorem IdsEffect.newUsers {pid : Nat} {w w' : AuthWorld} {o : AuthOp} (heff : IdsEffect pid w w' o)
    (ho : ∀ u, o ≠ .insertUser u) (h : (w.sessions pid).newUsers = []) : (w'.sessions pid).newUsers = [] := by
  have hnil : w.userIdsAt (some pid) = [] := List.map_eq_nil_iff.mpr h
  have hnil' : w'.userIdsAt (some pid) = [] := by
    cases heff with
    | same ids uuid => rw [ids, hnil]
    | insert n op ids uuid => exact absurd op (ho n)
    | commit ids uuid => rw [ids, Function.update_self]
    | drop ids uuid => rw [ids, Function.update_self]
  exact List.map_eq_nil_iff.mp hnil'

/-! ### The other steps -/

private theorem User.setActive_id (id : Uuid) (active : Bool) (u : User) :
    (u.setActive id active).id = u.id := by
  unfold User.setActive
  split <;> rfl

/-- An administrator and the clock change no id, no tenant and no row of a token. -/
structure EnvEffect (w w' : AuthWorld) : Prop where
  ids : w'.userIdsAt = w.userIdsAt
  uuid : w'.nextUuid = w.nextUuid
  tokens : w'.refreshTokens = w.refreshTokens
  sessions : w'.sessions = w.sessions
  users : ∀ id tid, w.HasUser id tid → w'.HasUser id tid

theorem authEnv_effect {e : AuthEnv} {w w' : AuthWorld} (h : e.step w = some w') : EnvEffect w w' := by
  cases e with
  | pass d =>
    obtain rfl := Option.some.inj h
    exact ⟨rfl, rfl, rfl, rfl, fun _ _ hu => hu⟩
  | setActive uid active =>
    obtain rfl := Option.some.inj h
    refine ⟨?_, rfl, rfl, rfl, ?_⟩
    · funext place
      cases place with
      | none =>
        have hid : User.id ∘ User.setActive uid active = User.id := funext (User.setActive_id uid active)
        simp [AuthWorld.userIdsAt, Table.update, hid]
      | some q => rfl
    · intro id tid hu
      obtain ⟨u, hm, hid, htid⟩ := hu
      refine ⟨u.setActive uid active, List.mem_map_of_mem hm, (User.setActive_id uid active u).trans hid, ?_⟩
      exact (congrArg Prod.fst (User.setActive_key uid active u)).trans htid

/-- A request begins without pending users. -/
theorem openSession_ids (pid : Nat) (w : AuthWorld) :
    (w.openSession pid).userIdsAt = Function.update w.userIdsAt (some pid) [] :=
  AuthWorld.userIdsAt_setSession pid AuthSession.fresh w

end LegalRag
