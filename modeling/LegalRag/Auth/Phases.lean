import LegalRag.Auth.World
import LegalRag.Calls.Protocol

/-!
# The phases of a request that presents a refresh token

`refresh` and `logout` go through the same phases: the row is not read yet, is read and of no use, is
found active, has been assigned a `revoked_at`, and the transaction is committed.  `refresh_obeys` and
`logout_obeys` read this off the programs; `Knows` is what each phase tells about the session and the
tables, and `auth_obeys` that it stays true in every run.
-/

namespace LegalRag

open Calls Prog Service Relational

inductive Phase where
  | unread
  | spent
  | active (rt : RefreshToken)
  | assigned (rt : RefreshToken)
  | closed
  | failed

/-- What a request that presents a token with the hash `h` may call. -/
def presents (h : String) : Protocol AuthCalls ApiErr Phase where
  allows
    | .unread, o => o = .now ∨ o = .selectRefresh h
    | .spent, o => o = .now ∨ o = .commit
    | .active rt, o => o = .now ∨ o = .selectRefresh h ∨ ∃ t, o = .setRevokedAt rt.id t
    | .assigned _, o => o = .now ∨ o = .uuid4 ∨ o = .commit ∨ ∃ r, o = .insertRefresh r
    | .closed, _ | .failed, _ => False
  replies
    | .active rt, .selectRefresh _, a => a = some rt
    | _, _, _ => True
  next
    | .unread, .selectRefresh _, some rt => if rt.revokedAt = none then .active rt else .spent
    | .unread, .selectRefresh _, none => .spent
    | .active rt, .setRevokedAt .., _ => .assigned rt
    | .assigned _, .commit, _ => .closed
    | φ, _, _ => φ
  failed _ _ _ := .failed

/-! ### The programs -/

section Programs

variable {cfg : AuthSettings} {h : String} {α : Type} {post : Phase → Except ApiErr α → Prop}

/-- A program that ends well ends in the phase `φ`. -/
def EndsIn (φ : Phase) (ψ : Phase) (r : Except ApiErr α) : Prop := (∃ a, r = .ok a) → ψ = φ

private theorem endsIn_error (φ ψ : Phase) (e : ApiErr) : EndsIn φ ψ (.error e : Except ApiErr α) := by
  rintro ⟨a, ha⟩
  cases ha

/-- Sequencing of programs of which each either fails or ends in a known phase. -/
private theorem obeys_seq {β : Type} {φ ψ χ : Phase} {p : Auth α} {f : α → Auth β}
    (hp : p.Obeys (presents h) (EndsIn ψ) φ)
    (hf : ∀ a, (f a).Obeys (presents h) (EndsIn χ) ψ) : (p >>= f).Obeys (presents h) (EndsIn χ) φ := by
  refine obeys_bind (hp.mono fun θ r hr => ?_)
  cases r with
  | ok a =>
    have hθ : θ = ψ := hr ⟨a, rfl⟩
    rw [hθ]
    exact hf a
  | error e => exact endsIn_error χ θ e

/-- A call that does not change the phase. -/
private theorem obeys_still {φ : Phase} {o : AuthCalls.Op} (ha : (presents h).allows φ o)
    (hn : ∀ a, (presents h).next φ o a = φ) : (auth o).Obeys (presents h) (EndsIn φ) φ :=
  obeys_perform ha (fun a _ _ => hn a) (fun e => endsIn_error φ _ e)

private theorem obeys_pure {φ : Phase} (a : α) :
    (pure a : Auth α).Obeys (presents h) (EndsIn φ) φ := fun _ => rfl

private theorem obeys_throw {φ ψ : Phase} (e : ApiErr) : (throw e : Auth α).Obeys (presents h) (EndsIn ψ) φ :=
  endsIn_error ψ φ e

private theorem obeys_now_unread : (auth .now).Obeys (presents h) (EndsIn .unread) .unread :=
  obeys_still (Or.inl rfl) fun _ => rfl

private theorem obeys_now_active (rt : RefreshToken) :
    (auth .now).Obeys (presents h) (EndsIn (.active rt)) (.active rt) :=
  obeys_still (Or.inl rfl) fun _ => rfl

private theorem obeys_now_assigned (rt : RefreshToken) :
    (auth .now).Obeys (presents h) (EndsIn (.assigned rt)) (.assigned rt) :=
  obeys_still (Or.inl rfl) fun _ => rfl

private theorem decodeToken_obeys (cfg : AuthSettings) (token : String) :
    (decodeToken cfg token).Obeys (presents h) (EndsIn .unread) .unread := by
  refine obeys_seq obeys_now_unread fun now => ?_
  intro _
  rfl

private theorem parseUuid_obeys (φ : Phase) (text : String) :
    (parseUuid text).Obeys (presents h) (EndsIn φ) φ := by
  unfold parseUuid
  cases readDecimal text.toList with
  | some id => exact obeys_pure id
  | none => exact obeys_throw _

private theorem buildToken_obeys (rt : RefreshToken) (userId tenantId : Uuid) (typ : TokenType) (ttl : Nat) :
    (buildToken cfg userId tenantId typ ttl).Obeys (presents h) (EndsIn (.assigned rt)) (.assigned rt) := by
  refine obeys_seq (obeys_now_assigned rt) fun now => ?_
  refine obeys_seq (obeys_still (Or.inr (Or.inl rfl)) fun _ => rfl) fun jti => ?_
  exact obeys_pure _

private theorem tokenPair_obeys (rt : RefreshToken) (userId tenantId : Uuid) :
    (tokenPair cfg userId tenantId).Obeys (presents h) (EndsIn (.assigned rt)) (.assigned rt) := by
  refine obeys_seq (buildToken_obeys rt userId tenantId .access _) fun access => ?_
  refine obeys_seq (buildToken_obeys rt userId tenantId .refresh _) fun refresh => ?_
  exact obeys_pure _

/-- Once the row is found active, `revoke_refresh` finds the same row, and assigns. -/
private theorem revokeRefresh_obeys_active (cfg : AuthSettings) (token : String) {rt : RefreshToken}
    (hrt : rt.revokedAt = none) :
    (revokeRefresh cfg token).Obeys (presents (cfg.sha256 token)) (EndsIn (.assigned rt)) (.active rt) := by
  refine obeys_bind (obeys_perform (Or.inr (Or.inl rfl)) (fun a ha => ?_) fun e => endsIn_error _ _ e)
  have ha : a = some rt := ha
  subst ha
  have hif : (if rt.revokedAt = none then
      (do let now ← auth .now
          auth (.setRevokedAt rt.id now)) else pure () : Auth Unit).Obeys (presents (cfg.sha256 token))
        (EndsIn (.assigned rt)) (.active rt) := by
    rw [if_pos hrt]
    refine obeys_seq (obeys_now_active rt) fun now => ?_
    exact obeys_perform (Or.inr (Or.inr ⟨now, rfl⟩)) (fun _ _ _ => rfl) fun e => endsIn_error _ _ e
  exact hif

private theorem rotate_obeys (cfg : AuthSettings) (req : RefreshRequest) (payload : TokenPayload)
    {rt : RefreshToken} (hrt : rt.revokedAt = none) :
    (rotate cfg req payload).Obeys (presents (cfg.sha256 req.refreshToken)) (EndsIn .closed)
      (.active rt) := by
  refine obeys_seq (revokeRefresh_obeys_active cfg req.refreshToken hrt) fun _ => ?_
  refine obeys_seq (parseUuid_obeys _ payload.sub) fun userId => ?_
  refine obeys_seq (parseUuid_obeys _ payload.tid) fun tenantId => ?_
  refine obeys_seq (tokenPair_obeys rt userId tenantId) fun pair => ?_
  refine obeys_seq (obeys_seq (obeys_now_assigned rt) fun now => obeys_pure _) fun expiresAt => ?_
  refine obeys_seq (obeys_still (Or.inr (Or.inr (Or.inr ⟨_, rfl⟩))) fun _ => rfl) fun row => ?_
  have hcommit : (auth .commit).Obeys (presents (cfg.sha256 req.refreshToken)) (EndsIn .closed)
    (.assigned rt) :=
    obeys_perform (Or.inr (Or.inr (Or.inl rfl))) (fun _ _ _ => rfl) fun e => endsIn_error _ _ e
  exact obeys_seq hcommit fun _ => obeys_pure _

/-- A refresh is answered with tokens only after it has committed the revocation of a row that it found
active. -/
theorem refresh_obeys (cfg : AuthSettings) (req : RefreshRequest) :
    (refresh cfg req).Obeys (presents (cfg.sha256 req.refreshToken)) (EndsIn .closed) .unread := by
  have hdecode : (tryCatch (decodeToken cfg req.refreshToken) fun _ =>
    throw (.http 401 "invalid token")).Obeys
      (presents (cfg.sha256 req.refreshToken)) (EndsIn .unread) .unread := by
    refine obeys_handle ((decodeToken_obeys cfg req.refreshToken).mono fun ψ r hr => ?_)
    cases r with
    | ok payload => exact hr
    | error e => exact endsIn_error _ _ _
  refine obeys_seq hdecode fun payload => ?_
  by_cases htyp : payload.typ ≠ .refresh
  · rw [if_pos htyp]
    exact obeys_throw _
  rw [if_neg htyp]
  refine obeys_bind (obeys_perform (Or.inr rfl) (fun row _ => ?_) fun e => endsIn_error _ _ e)
  cases row with
  | none => exact endsIn_error _ _ _
  | some rt =>
    by_cases hrt : rt.revokedAt = none
    · have hnext : (presents (cfg.sha256 req.refreshToken)).next .unread
          (.selectRefresh (cfg.sha256 req.refreshToken)) (some rt) = .active rt := if_pos hrt
      rw [hnext]
      have husable : (usable (some rt)).Obeys (presents (cfg.sha256 req.refreshToken)) (EndsIn (.active rt))
          (.active rt) := by
        simp only [usable, hrt, ne_eq, not_true_eq_false, if_false]
        exact obeys_seq (obeys_now_active rt) fun now => obeys_pure _
      refine obeys_seq husable fun ok => ?_
      cases ok with
      | true => exact rotate_obeys cfg req payload hrt
      | false => exact obeys_throw _
    · have hnext : (presents (cfg.sha256 req.refreshToken)).next .unread
          (.selectRefresh (cfg.sha256 req.refreshToken)) (some rt) = .spent := if_neg hrt
      rw [hnext]
      have husable : usable (some rt) = pure false :=
        by simp only [usable, hrt, ne_eq, not_false_eq_true, if_true]
      simp only [cont_ok, husable]
      exact endsIn_error _ _ _

/-- `revoke_refresh` on its own leaves a row alone that is of no use, or assigns. -/
private theorem revokeRefresh_obeys_unread (cfg : AuthSettings) (token : String) :
    (revokeRefresh cfg token).Obeys (presents (cfg.sha256 token))
      (fun ψ r => (∃ a, r = .ok a) → ψ = .spent ∨ ∃ rt, ψ = .assigned rt) .unread := by
  have herr : ∀ (ψ : Phase) (e : ApiErr), (∃ a : Unit, (.error e : Except ApiErr Unit) = .ok a) →
      ψ = .spent ∨ ∃ rt, ψ = .assigned rt := by
    rintro ψ e ⟨a, ha⟩
    cases ha
  refine obeys_bind (obeys_perform (Or.inr rfl) (fun row _ => ?_) fun e => herr _ e)
  cases row with
  | none => exact fun _ => Or.inl rfl
  | some rt =>
    simp only [cont_ok]
    by_cases hrt : rt.revokedAt = none
    · have hnext : (presents (cfg.sha256 token)).next .unread (.selectRefresh (cfg.sha256 token)) (some rt) =
          .active rt := if_pos hrt
      rw [hnext, if_pos hrt]
      refine obeys_bind ((obeys_now_active rt).mono fun ψ r hr => ?_)
      cases r with
      | error e => exact herr ψ e
      | ok now =>
        rw [hr ⟨now, rfl⟩]
        exact obeys_perform (Or.inr (Or.inr ⟨now, rfl⟩)) (fun _ _ _ => Or.inr ⟨rt, rfl⟩) fun e => herr _ e
    · have hnext : (presents (cfg.sha256 token)).next .unread (.selectRefresh (cfg.sha256 token)) (some rt) =
          .spent := if_neg hrt
      rw [hnext, if_neg hrt]
      exact fun _ => Or.inl rfl

theorem logout_obeys (cfg : AuthSettings) (req : RefreshRequest) :
    (logout cfg req).Obeys (presents (cfg.sha256 req.refreshToken)) (fun _ _ => True) .unread := by
  refine obeys_bind ((revokeRefresh_obeys_unread cfg req.refreshToken).mono fun ψ r hr => ?_)
  cases r with
  | error e => trivial
  | ok a =>
    rcases hr ⟨a, rfl⟩ with rfl | ⟨rt, rfl⟩
    · exact obeys_perform (Or.inr rfl) (fun _ _ => trivial) fun _ => trivial
    · exact obeys_perform (Or.inr (Or.inr (Or.inl rfl))) (fun _ _ => trivial) fun _ => trivial

end Programs

/-! ### What a phase tells -/

namespace AuthWorld

/-- The row with this id has this hash. -/
def HasRow (id : Uuid) (h : String) (w : AuthWorld) : Prop :=
  ∃ r ∈ w.refreshTokens.rows, r.id = id ∧ r.key = h

/-- The row with this hash is revoked. -/
def Revoked (h : String) (w : AuthWorld) : Prop :=
  ∃ r ∈ w.refreshTokens.rows, r.key = h ∧ r.revokedAt ≠ none

/-- Rows stay, and what is revoked stays revoked. -/
def Grows (w w' : AuthWorld) : Prop :=
  ∀ r ∈ w.refreshTokens.rows, ∃ r' ∈ w'.refreshTokens.rows,
    r'.id = r.id ∧ r'.key = r.key ∧ (r.revokedAt ≠ none → r'.revokedAt ≠ none)

private theorem grows_of_eq {w w' : AuthWorld} (h : w'.refreshTokens = w.refreshTokens) : w.Grows w' := by
  intro r hr
  exact ⟨r, h ▸ hr, rfl, rfl, id⟩

private theorem HasRow.grows {id : Uuid} {h : String} {w w' : AuthWorld} (hr : w.HasRow id h)
    (hg : w.Grows w') : w'.HasRow id h := by
  obtain ⟨r, hm, hid, hk⟩ := hr
  obtain ⟨r', hm', hid', hk', -⟩ := hg r hm
  exact ⟨r', hm', hid'.trans hid, hk'.trans hk⟩

theorem Revoked.grows {h : String} {w w' : AuthWorld} (hr : w.Revoked h) (hg : w.Grows w') :
    w'.Revoked h := by
  obtain ⟨r, hm, hk, hrev⟩ := hr
  obtain ⟨r', hm', -, hk', hrev'⟩ := hg r hm
  exact ⟨r', hm', hk'.trans hk, hrev' hrev⟩

/-- The row of a hash that is revoked is not active. -/
theorem Revoked.not_active {h : String} {w : AuthWorld} (hr : w.Revoked h) {r : RefreshToken}
    (hm : r ∈ w.refreshTokens.rows) (hk : r.key = h) : r.revokedAt ≠ none := by
  obtain ⟨r', hm', hk', hrev⟩ := hr
  have he : r' = r := w.refreshTokens.eq_of_key hm' hm (hk'.trans hk.symm)
  rwa [he] at hrev

end AuthWorld

/-- What a request that presents a token with the hash `h` knows in a phase, of its session and of the
tables. -/
def Knows (h : String) (s : AuthSession) : Phase → AuthWorld → Prop
  | .unread, _ => s.tokens = [] ∧ s.revoked = [] ∧ s.newTokens = []
  | .spent, w => (s.tokens = [] ∨ w.Revoked h) ∧ s.revoked = [] ∧ s.newTokens = []
  | .active rt, w =>
    s.tokens = [rt] ∧ rt.key = h ∧ rt.revokedAt = none ∧ s.revoked = [] ∧ s.newTokens = [] ∧
    w.HasRow rt.id h
  | .assigned rt, w =>
    (∃ r ∈ s.tokens, r.id = rt.id ∧ r.key = h) ∧ (∃ t, s.revoked = [(rt.id, t)]) ∧ w.HasRow rt.id h
  | .closed, w => s.tokens ≠ [] ∧ s.revoked = [] ∧ w.Revoked h
  | .failed, _ => True

private theorem Knows.grows {h : String} {s : AuthSession} {φ : Phase} {w w' : AuthWorld} (hk : Knows h s φ w)
    (hg : w.Grows w') : Knows h s φ w' := by
  cases φ with
  | unread => exact hk
  | spent => exact ⟨hk.1.imp id fun hr => hr.grows hg, hk.2⟩
  | active rt => exact ⟨hk.1, hk.2.1, hk.2.2.1, hk.2.2.2.1, hk.2.2.2.2.1, hk.2.2.2.2.2.grows hg⟩
  | assigned rt => exact ⟨hk.1, hk.2.1, hk.2.2.grows hg⟩
  | closed => exact ⟨hk.1, hk.2.1, hk.2.2.grows hg⟩
  | failed => trivial

/-! ### What a call does -/

/-- The refresh tokens after a commit: the assignments are made, and the new rows are appended. -/
theorem applyCommit_rows {s : AuthSession} {w w' : AuthWorld} (h : w.applyCommit s = some w') :
    w'.refreshTokens.rows = w.refreshTokens.rows.map (RefreshToken.assign s.revoked) ++ s.newTokens ∧
      w'.sessions = w.sessions := by
  simp only [AuthWorld.applyCommit, Option.bind_eq_bind, Option.bind_eq_some_iff, Option.pure_def,
    Option.some.injEq] at h
  obtain ⟨tenants, -, users, -, tokens, htokens, rfl⟩ := h
  exact ⟨Table.rows_insert? htokens, rfl⟩

private theorem applyCommit_grows {s : AuthSession} {w w' : AuthWorld} (h : w.applyCommit s = some w') :
    w.Grows w' := by
  intro r hr
  have hrows := (applyCommit_rows h).1
  refine ⟨r.assign s.revoked, ?_, rfl, rfl, ?_⟩
  · rw [hrows]
    exact List.mem_append_left _ (List.mem_map_of_mem hr)
  · intro hrev
    cases hl : s.revoked.lookup r.id <;> simp [RefreshToken.assign, hl, hrev]

/-- A commit makes the pending revocation of a row. -/
theorem applyCommit_revoked {s : AuthSession} {w w' : AuthWorld} {id : Uuid} {t : Nat} {h : String}
    (hc : w.applyCommit s = some w') (hs : s.revoked = [(id, t)]) (hrow : w.HasRow id h) : w'.Revoked h := by
  obtain ⟨r, hr, hid, hk⟩ := hrow
  have hrows := (applyCommit_rows hc).1
  refine ⟨r.assign s.revoked, ?_, hk, ?_⟩
  · rw [hrows]
    exact List.mem_append_left _ (List.mem_map_of_mem hr)
  · simp [RefreshToken.assign, hs, hid]

/-- Only a commit changes the table of the refresh tokens. -/
theorem authReply_tokens (pid : Nat) {o : AuthCalls.Op} (ho : o ≠ .commit) (w : AuthWorld) :
    (authReply pid o w).2.refreshTokens = w.refreshTokens := by
  cases o with
  | commit => exact absurd rfl ho
  | insertTenant name slug =>
    simp only [authReply]
    split <;> rfl
  | insertUser u =>
    simp only [authReply]
    split <;> rfl
  | selectRefresh hash =>
    simp only [authReply]
    split <;> rfl
  | insertRefresh r =>
    simp only [authReply]
    split
    · rfl
    · split
      · rfl
      · split <;> rfl
  | _ => rfl

private theorem authReply_grows (pid : Nat) (o : AuthCalls.Op) (w : AuthWorld) :
    w.Grows (authReply pid o w).2 := by
  by_cases ho : o = .commit
  · subst ho
    cases hc : w.applyCommit (w.sessions pid) with
    | none =>
      simp only [authReply, hc]
      exact AuthWorld.grows_of_eq rfl
    | some w' =>
      have hg := applyCommit_grows hc
      simp only [authReply, hc]
      exact hg
  · exact AuthWorld.grows_of_eq (authReply_tokens pid ho w)

/-- A request leaves the sessions of the others alone. -/
private theorem authReply_sessions {pid q : Nat} (hq : q ≠ pid) (o : AuthCalls.Op) (w : AuthWorld) :
    (authReply pid o w).2.sessions q = w.sessions q := by
  have hset : ∀ (s : AuthSession) (w : AuthWorld), (w.setSession pid s).sessions q = w.sessions q := by
    intro s w
    simp [AuthWorld.setSession, Function.update_of_ne hq]
  cases o with
  | commit =>
    cases hc : w.applyCommit (w.sessions pid) with
    | none => simp only [authReply, hc, hset]
    | some w' => simp only [authReply, hc, hset, (applyCommit_rows hc).2]
  | insertTenant name slug =>
    simp only [authReply]
    split
    · rfl
    · exact hset _ w
  | insertUser u =>
    simp only [authReply]
    split
    · rfl
    · exact hset _ w
  | selectRefresh hash =>
    simp only [authReply]
    split
    · rfl
    · exact hset _ w
  | insertRefresh r =>
    simp only [authReply]
    split
    · rfl
    · split
      · rfl
      · split
        · rfl
        · exact hset _ w
  | setLastLoginAt id t => exact hset _ w
  | setRevokedAt id t => exact hset _ w
  | _ => rfl

/-- A lookup by token hash, from a session that has inserted nothing. -/
theorem findToken_eq_some {pid : Nat} {h : String} {w : AuthWorld} {row : RefreshToken}
    (hs : (w.sessions pid).newTokens = []) (hf : w.findToken pid h = some row) :
    row ∈ w.refreshTokens.rows ∧ row.key = h := by
  rw [AuthWorld.findToken, hs, List.append_nil] at hf
  exact ⟨List.mem_of_find?_eq_some hf, by simpa using List.find?_some hf⟩

/-- The first read of the row. -/
private theorem knows_read {h : String} {pid : Nat} {w : AuthWorld} (hk : Knows h (w.sessions pid) .unread w)
    (a : Option RefreshToken) (ha : (authReply pid (.selectRefresh h) w).1 = .ok a) :
    Knows h ((authReply pid (.selectRefresh h) w).2.sessions pid)
      ((presents h).next .unread (.selectRefresh h) a) (authReply pid (.selectRefresh h) w).2 := by
  obtain ⟨htok, hrev, hnew⟩ := hk
  cases hf : w.findToken pid h with
  | none =>
    simp only [authReply, hf, Except.ok.injEq] at ha ⊢
    rw [← ha]
    exact ⟨Or.inl htok, hrev, hnew⟩
  | some row =>
    obtain ⟨hm, hkey⟩ := findToken_eq_some hnew hf
    simp only [authReply, hf, AuthSession.object, htok, List.find?_nil, Option.getD_none, Except.ok.injEq]
      at ha ⊢
    rw [← ha]
    have hsess : ((w.setSession pid ((w.sessions pid).load row)).sessions pid) =
        { w.sessions pid with tokens := [row] } := by
      simp [AuthWorld.setSession, AuthSession.load, htok]
    rw [hsess]
    by_cases hrow : row.revokedAt = none
    · have hnext : (presents h).next .unread (.selectRefresh h) (some row) = .active row := if_pos hrow
      rw [hnext]
      exact ⟨rfl, hkey, hrow, hrev, hnew, row, hm, rfl, hkey⟩
    · have hnext : (presents h).next .unread (.selectRefresh h) (some row) = .spent := if_neg hrow
      rw [hnext]
      exact ⟨Or.inr ⟨row, hm, hkey, hrow⟩, hrev, hnew⟩

/-- Reading the row again returns the object of the first read. -/
private theorem read_again {h : String} {pid : Nat} {rt : RefreshToken} {w : AuthWorld}
    (hk : Knows h (w.sessions pid) (.active rt) w) :
    authReply pid (.selectRefresh h) w = (.ok (some rt), w) := by
  obtain ⟨htok, hkey, hrt, hrev, hnew, row, hm, hid, hrow⟩ := hk
  have hf : w.findToken pid h = some row := by
    rw [AuthWorld.findToken, hnew, List.append_nil, ← hrow]
    exact w.refreshTokens.find?_key hm
  simp only [authReply, hf, AuthSession.object, AuthSession.load, htok]
  simp [hid, AuthWorld.setSession]

/-- A call of a request that presents a token tells it what the next phase says. -/
theorem knows_call {h : String} {pid : Nat} {φ : Phase} {o : AuthCalls.Op} {w : AuthWorld}
    (ha : (presents h).allows φ o) (hk : Knows h (w.sessions pid) φ w) (a : AuthCalls.Resp o)
    (hr : (authReply pid o w).1 = .ok a) :
    (presents h).replies φ o a ∧
      Knows h ((authReply pid o w).2.sessions pid) ((presents h).next φ o a) (authReply pid o w).2 := by
  cases φ with
  | unread =>
    rcases ha with rfl | rfl
    · exact ⟨trivial, hk⟩
    · exact ⟨trivial, knows_read hk a hr⟩
  | spent =>
    rcases ha with rfl | rfl
    · exact ⟨trivial, hk⟩
    · refine ⟨trivial, ?_⟩
      cases hc : w.applyCommit (w.sessions pid) with
      | none => simp [authReply, hc] at hr
      | some w' =>
        have hg := applyCommit_grows hc
        simp only [authReply, hc, AuthWorld.setSession, Function.update_self]
        exact ⟨hk.1.imp id fun hrev => hrev.grows hg, rfl, rfl⟩
  | active rt =>
    rcases ha with rfl | rfl | ⟨t, rfl⟩
    · exact ⟨trivial, hk⟩
    · -- the session has the object already, and the query returns it
      have hread := read_again hk
      rw [hread] at hr ⊢
      have hra : a = some rt := by simpa using hr.symm
      refine ⟨hra, ?_⟩
      rw [hra]
      exact hk
    · refine ⟨trivial, ?_⟩
      obtain ⟨htok, hkey, -, hrev, -, hrow⟩ := hk
      simp only [authReply, AuthWorld.setSession, Function.update_self, AuthSession.revoke]
      refine ⟨⟨rt.assign [(rt.id, t)], ?_, rfl, hkey⟩, ⟨t, by rw [hrev]⟩, hrow⟩
      rw [htok]
      exact List.mem_singleton_self _
  | assigned rt =>
    obtain ⟨htok, ⟨t, hrev⟩, hrow⟩ := hk
    rcases ha with rfl | rfl | rfl | ⟨r, rfl⟩
    · exact ⟨trivial, htok, ⟨t, hrev⟩, hrow⟩
    · exact ⟨trivial, htok, ⟨t, hrev⟩, hrow⟩
    · refine ⟨trivial, ?_⟩
      cases hc : w.applyCommit (w.sessions pid) with
      | none => simp [authReply, hc] at hr
      | some w' =>
        -- the commit writes what was assigned to the object
        have hrevoked := applyCommit_revoked hc hrev hrow
        simp only [authReply, hc, AuthWorld.setSession, Function.update_self]
        obtain ⟨r, hr, -⟩ := htok
        exact ⟨List.ne_nil_of_mem hr, rfl, hrevoked⟩
    · refine ⟨trivial, ?_⟩
      have hg := authReply_grows pid (.insertRefresh r) w
      refine ⟨?_, ⟨t, ?_⟩, hrow.grows hg⟩
      all_goals
        simp only [authReply]
        split
        · assumption
        · split
          · assumption
          · split
            · assumption
            · simpa [AuthWorld.setSession]
  | closed => exact absurd ha id
  | failed => exact absurd ha id

/-! ### Every request of a run -/

variable (cfg : AuthSettings)

def authProtocol : AuthRequest → Protocol AuthCalls ApiErr Phase
  | .refresh req | .logout req => presents (cfg.sha256 req.refreshToken)
  | .register _ | .login _ => Protocol.free .unread

/-- A refresh that is answered with tokens has committed. -/
def authPost : AuthRequest → Phase → Except ApiErr AuthReply → Prop
  | .refresh _ => EndsIn .closed
  | _ => fun _ _ => True

def authFits : AuthRequest → Nat → Phase → AuthWorld → Prop
  | .refresh req, pid, φ, w | .logout req, pid, φ, w =>
    Knows (cfg.sha256 req.refreshToken) (w.sessions pid) φ w
  | .register _, _, _, _ | .login _, _, _, _ => True

/-- Every process is in a phase of its request. -/
abbrev InPhase (s : AuthState) : Prop := s.Obeys (authProtocol cfg) authPost (authFits cfg)

private theorem program_obeys (pid : Nat) (r : AuthRequest) (w : AuthWorld) :
    ∃ φ, (r.program cfg).Obeys (authProtocol cfg r) (authPost r) φ ∧
      authFits cfg r pid φ (w.openSession pid) := by
  have hfresh : (w.openSession pid).sessions pid = AuthSession.fresh := by simp [AuthWorld.openSession]
  have hunread : ∀ h, Knows h ((w.openSession pid).sessions pid) .unread (w.openSession pid) := by
    intro h
    rw [hfresh]
    exact ⟨rfl, rfl, rfl⟩
  cases r with
  | register req => exact ⟨.unread, obeys_free _ _, trivial⟩
  | login req => exact ⟨.unread, obeys_free _ _, trivial⟩
  | refresh req =>
    refine ⟨.unread, ?_, hunread (cfg.sha256 req.refreshToken)⟩
    have hmap : (AuthRequest.refresh req).program cfg = refresh cfg req >>= fun r => pure (.tokens r) :=
      map_eq_pure_bind _ _
    rw [hmap]
    exact obeys_seq (refresh_obeys cfg req) fun r => obeys_pure _
  | logout req =>
    refine ⟨.unread, ?_, hunread (cfg.sha256 req.refreshToken)⟩
    have hmap : (AuthRequest.logout req).program cfg = logout cfg req >>= fun _ => pure .noContent :=
      map_eq_pure_bind _ _
    rw [hmap]
    refine obeys_bind ((logout_obeys cfg req).mono fun ψ r _ => ?_)
    cases r <;> trivial

/-- A step lets rows neither disappear nor become active again, and leaves the sessions of the other
processes alone. -/
theorem auth_step_grows {cfg : AuthSettings} {s s' : AuthState} {l : AuthLabel}
    (h : (authService cfg).step s l = some s') :
    s.world.Grows s'.world ∧ ∀ q, l.pid ≠ some q → s'.world.sessions q = s.world.sessions q := by
  rcases step_cases h with ⟨pid, r, rfl, -, rfl⟩ | ⟨pid, out, r, o, k, rfl, -, rfl⟩ | ⟨e, w, rfl, hw, rfl⟩
  · refine ⟨AuthWorld.grows_of_eq rfl, fun q hq => ?_⟩
    have hne : q ≠ pid := fun he => hq (by rw [he]; rfl)
    exact Function.update_of_ne hne _ _
  · rw [resume_world]
    have hcases : out.world ((authService cfg).handle pid r) o s.world = s.world ∨
        out.world ((authService cfg).handle pid r) o s.world = (authReply pid o s.world).2 :=
        Outcome.world_eq _ o s.world out
    rcases hcases with hw | hw <;> rw [hw]
    · exact ⟨AuthWorld.grows_of_eq rfl, fun q _ => rfl⟩
    · refine ⟨authReply_grows pid o s.world, fun q hq => authReply_sessions ?_ o s.world⟩
      exact fun he => hq (by rw [he]; rfl)
  · cases e with
    | pass d =>
      simp only [authService, AuthEnv.step, Option.some.injEq] at hw
      rw [← hw]
      exact ⟨AuthWorld.grows_of_eq rfl, fun q _ => rfl⟩
    | setActive id active =>
      simp only [authService, AuthEnv.step, Option.some.injEq] at hw
      rw [← hw]
      exact ⟨AuthWorld.grows_of_eq rfl, fun q _ => rfl⟩

theorem inPhase_step {cfg : AuthSettings} {s s' : AuthState} {l : AuthLabel} (hs : InPhase cfg s)
    (h : (authService cfg).step s l = some s') : InPhase cfg s' := by
  obtain ⟨hg, hsess⟩ := auth_step_grows h
  refine obeys_step (program_obeys cfg) ?_ ?_ hs h
  · intro pid r o k out φ rep _ _ ha hf hrep
    refine Protocol.after_fits (F := fun ψ w => authFits cfg r pid ψ w) ?_ ?_ hrep
    · intro a hr
      cases r with
      | register req => exact ⟨trivial, trivial⟩
      | login req => exact ⟨trivial, trivial⟩
      | refresh req => exact knows_call ha hf a hr
      | logout req => exact knows_call ha hf a hr
    · intro e v _
      cases r <;> trivial
  · intro q p φ hq hp _ hf
    have heq := hsess q hq
    cases hreq : p.req with
    | register req => trivial
    | login req => trivial
    | refresh req =>
      rw [hreq] at hf
      show Knows _ (s'.world.sessions q) φ s'.world
      rw [heq]
      exact Knows.grows hf hg
    | logout req =>
      rw [hreq] at hf
      show Knows _ (s'.world.sessions q) φ s'.world
      rw [heq]
      exact Knows.grows hf hg

/-- In every run every request is in one of its phases. -/
theorem inPhase_run {cfg : AuthSettings} {w : AuthWorld} {ls : List AuthLabel} {s : AuthState}
    (h : (authService cfg).run (idle w) ls = some s) : InPhase cfg s :=
  run_induct (fun _ _ _ hi _ hs => inPhase_step hi hs) (idle_obeys _ _ _ w) (meets_true _ ls) h

end LegalRag
