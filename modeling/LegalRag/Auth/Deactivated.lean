import LegalRag.Auth.Binding

/-!
# Tokens for users who have been deactivated

`login` checks `is_active` of the row that it reads; `refresh` reads no user at all.  So `IssuesToActive`
holds of every login, and of the refreshes whose user is active when the row of their token is found
(`issues_to_active`), but a refresh goes on issuing tokens after an administrator has deactivated the user
(`not_always_to_active`).
-/

namespace LegalRag

open Calls Prog Service Relational

variable (cfg : AuthSettings)

/-- The process is about to read what it issues tokens on: a login the row of the user, a refresh the row
of its token. -/
def ReadsAccount (s : AuthState) (pid : Nat) : Prop :=
  (∃ q tid email k, s.procs pid = some ⟨.login q, .call (.selectUser tid email) k⟩) ∨
    ∃ q hash k, s.procs pid = some ⟨.refresh q, .call (.selectRefresh hash) k⟩ ∧
      (s.world.sessions pid).tokens = []

/-- Every pair of tokens is issued for a user who is active when the request reads the database. -/
def IssuesToActive (s₀ : AuthState) (ls : List AuthLabel) : Prop :=
  ∀ ls₁ pid out ls₂ u s req r, ls = ls₁ ++ .call pid out :: ls₂ → (authService cfg).run s₀ ls₁ = some u →
    ReadsAccount u pid →
    (∀ q, Label.start pid q ∉ ls₂) → (authService cfg).run u (.call pid out :: ls₂) = some s →
    s.procs pid = some ⟨req, .done (.ok (.tokens r))⟩ →
    ∃ user ∈ u.world.users.rows, user.isActive = true ∧ ∃ tid, PairFor cfg user.id tid r

/-- A refresh that finds the row of its token, unrevoked, is one of an active user. -/
def ActiveAtRefresh (s : AuthState) : AuthLabel → Prop
  | .call pid _ => ∀ q hash k, s.procs pid = some ⟨.refresh q, .call (.selectRefresh hash) k⟩ →
      (s.world.sessions pid).tokens = [] →
      (∃ row ∈ s.world.refreshTokens.rows, row.key = hash ∧ row.revokedAt = none) →
      ∀ id tid, Presents cfg q.refreshToken id tid → ∃ user ∈ s.world.users.rows, user.id = id ∧
        user.isActive = true
  | _ => True

variable {cfg}

/-! ### Logins -/

/-- The process is the rest of a login that has read a row of `users`, or none. -/
def LoginRead (cfg : AuthSettings) (users : List User) (p : AuthProc) : Prop :=
  ∃ q φ, p.req = .login q ∧ p.prog.Obeys (issuing cfg (.login q)) (IssueEnds cfg (.login q)) φ ∧
    (φ = .lost ∨ ∃ tid, ∃ user ∈ users, φ = .found tid user)

/-- A login that has read the row stays with it. -/
private theorem loginRead_call {users : List User} (r : AuthRequest) (o : AuthOp)
    (k : Except ApiErr o.Resp → Auth AuthReply)
    (rep : Except ApiErr o.Resp) (h : LoginRead cfg users ⟨r, .call o k⟩) :
    LoginRead cfg users ⟨r, k rep⟩ := by
  obtain ⟨q, φ, hreq, ⟨ha, hok, herr⟩, hφ⟩ := h
  have hstay : (issuing cfg (.login q)).after φ o rep = φ := by
    rcases hφ with rfl | ⟨tid, user, -, rfl⟩ <;> cases rep <;> cases o <;> first | exact ha.elim | rfl
  refine ⟨q, φ, hreq, ?_, hφ⟩
  rw [← hstay]
  cases rep with
  | ok a => exact hok a trivial
  | error e => exact herr e

/-- A login that has answered with tokens has read the row of an active user. -/
private theorem LoginRead.active {users : List User} {req : AuthRequest} {r : TokenResponse}
    (h : LoginRead cfg users ⟨req, .done (.ok (.tokens r))⟩) :
    ∃ user ∈ users, user.isActive = true ∧ ∃ tid, PairFor cfg user.id tid r := by
  obtain ⟨q, φ, -, hend, hφ⟩ := h
  obtain ⟨id, tid, hn, hpair⟩ := hend r rfl
  rcases hφ with rfl | ⟨t, user, hu, rfl⟩
  · exact hn.elim
  · obtain ⟨rfl, rfl, hactive⟩ := hn
    exact ⟨user, hu, hactive, tid, hpair⟩

/-- A session of a request that is no registration has inserted no user. -/
def NoUsers (req : AuthRequest) (pid : Nat) (_ : IssuePhase) (w : AuthWorld) : Prop :=
  (∀ q, req ≠ .register q) → (w.sessions pid).newUsers = []

/-- Every request issues tokens for whom it names, in every run. -/
private theorem issuing_run {w : AuthWorld} {ls : List AuthLabel} {s : AuthState}
    (h : (authService cfg).run (idle w) ls = some s) : s.Obeys (issuing cfg) (IssueEnds cfg) NoUsers := by
  refine run_keeps (fun s => s.Obeys (issuing cfg) (IssueEnds cfg) NoUsers) ?_ (idle_obeys _ _ _ w) h
  intro s l s' hs h
  refine obeys_step ?_ ?_ ?_ hs h
  · intro pid r w
    refine ⟨.start, program_issues cfg r, fun _ => ?_⟩
    show (Function.update w.sessions pid AuthSession.fresh pid).newUsers = []
    rw [Function.update_self]
    rfl
  · intro pid r o k out φ rep _ _ ha hf hrep
    have hafter : ∀ ψ, NoUsers r pid ψ (authReply pid o s.world).2 :=
      fun _ hreq => newUsers_call ha hreq (hf hreq)
    refine Protocol.after_fits (F := fun ψ v => NoUsers r pid ψ v) (fun a _ => ⟨trivial, hafter _⟩)
      (fun e v hv => ?_) hrep
    rcases hv with rfl | rfl
    · exact hf
    · exact hafter _
  · intro q p φ hq _ _ hf hreq
    rw [(auth_step_grows h).2 q hq]
    exact hf hreq

/-- What a login knows once it has asked for the row. -/
private theorem loginRead_of_read {u : AuthState} (hu : u.Obeys (issuing cfg) (IssueEnds cfg) NoUsers)
    {pid : Nat} {q : LoginRequest} {tid : Uuid} {email : String}
    {k : Except ApiErr (Option User) → Auth AuthReply}
    (hp : u.procs pid = some ⟨.login q, .call (.selectUser tid email) k⟩) {out : Outcome ApiErr}
    {rep : Except ApiErr (Option User)}
    (hrep : out.reply (authReply pid) (.selectUser tid email) u.world = some rep) :
    LoginRead cfg u.world.users.rows ⟨.login q, k rep⟩ := by
  obtain ⟨φ, ⟨-, hok, herr⟩, hf⟩ := hu pid _ hp
  have hnil : (u.world.sessions pid).newUsers = [] := hf fun q h => by cases h
  cases rep with
  | error e =>
    have hlost : (issuing cfg (.login q)).failed φ (.selectUser tid email) e = .lost := by cases φ <;> rfl
    exact ⟨q, .lost, rfl, hlost ▸ herr e, Or.inl rfl⟩
  | ok a =>
    cases a with
    | none =>
      have hlost : (issuing cfg (.login q)).next φ (.selectUser tid email) none = .lost :=
        by cases φ <;> rfl
      exact ⟨q, .lost, rfl, hlost ▸ hok none trivial, Or.inl rfl⟩
    | some user =>
      have hfound : (issuing cfg (.login q)).next φ (.selectUser tid email) (some user) =
        .found tid user := by cases φ <;> rfl
      have hmem := (mem_of_selectUser hnil (Outcome.handler_ok hrep)).1
      exact ⟨q, .found tid user, rfl, hfound ▸ hok (some user) trivial, Or.inr ⟨tid, user, hmem, rfl⟩⟩

/-! ### Refreshes -/

/-- The process is the rest of a refresh that has found its row of no use. -/
def RefreshSpent (cfg : AuthSettings) (p : AuthProc) : Prop :=
  ∃ q φ, p.req = .refresh q ∧ p.prog.Obeys (presents (cfg.sha256 q.refreshToken)) (EndsIn .closed) φ ∧
    (φ = .spent ∨ φ = .failed)

private theorem refreshSpent_call (r : AuthRequest) (o : AuthOp) (k : Except ApiErr o.Resp → Auth AuthReply)
    (rep : Except ApiErr o.Resp) (h : RefreshSpent cfg ⟨r, .call o k⟩) : RefreshSpent cfg ⟨r, k rep⟩ := by
  obtain ⟨q, φ, hreq, ⟨ha, hok, herr⟩, hφ⟩ := h
  rcases hφ with rfl | rfl
  · cases rep with
    | ok a =>
      rcases ha with rfl | rfl <;> exact ⟨q, .spent, hreq, hok a trivial, Or.inl rfl⟩
    | error e => exact ⟨q, .failed, hreq, herr e, Or.inr rfl⟩
  · exact absurd ha id

private theorem RefreshSpent.not_answered {req : AuthRequest} {r : TokenResponse} :
    ¬ RefreshSpent cfg ⟨req, .done (.ok (.tokens r))⟩ := by
  intro h
  obtain ⟨q, φ, -, hend, hφ⟩ := h
  have hclosed : φ = .closed := hend ⟨_, rfl⟩
  rcases hφ with rfl | rfl <;> cases hclosed

/-- The row that a session finds that has loaded and inserted none. -/
private theorem mem_of_selectRefresh {pid : Nat} {hash : String} {w : AuthWorld} {rt : RefreshToken}
    (htok : (w.sessions pid).tokens = []) (hnew : (w.sessions pid).newTokens = [])
    (h : (authReply pid (.selectRefresh hash) w).1 = .ok (some rt)) :
    rt ∈ w.refreshTokens.rows ∧ rt.key = hash := by
  cases hfind : w.findToken pid hash with
  | none => simp [authReply, hfind] at h
  | some row =>
    have hrow : row = rt := by simpa [authReply, hfind, AuthSession.object, htok] using h
    exact hrow ▸ findToken_eq_some hnew hfind

/-- A refresh that has not found its row unrevoked. -/
private theorem refreshSpent_of_read {u : AuthState} (hu : InPhase cfg u) {pid : Nat} {q : RefreshRequest}
    {hash : String} {k : Except ApiErr (Option RefreshToken) → Auth AuthReply}
    (hp : u.procs pid = some ⟨.refresh q, .call (.selectRefresh hash) k⟩)
    (htok : (u.world.sessions pid).tokens = [])
    (hnone : ¬ ∃ row ∈ u.world.refreshTokens.rows, row.key = hash ∧ row.revokedAt = none)
    {out : Outcome ApiErr} {rep : Except ApiErr (Option RefreshToken)}
    (hrep : out.reply (authReply pid) (.selectRefresh hash) u.world = some rep) :
    RefreshSpent cfg ⟨.refresh q, k rep⟩ := by
  obtain ⟨φ, ⟨ha, hok, herr⟩, hf⟩ := hu pid _ hp
  cases φ with
  | unread =>
    cases rep with
    | error e => exact ⟨q, .failed, rfl, herr e, Or.inr rfl⟩
    | ok a =>
      refine ⟨q, .spent, rfl, ?_, Or.inl rfl⟩
      cases a with
      | none => exact hok none trivial
      | some rt =>
        have hrevoked : rt.revokedAt ≠ none := by
          intro hactive
          obtain ⟨hmem, hkey⟩ := mem_of_selectRefresh htok hf.2.2 (Outcome.handler_ok hrep)
          exact hnone ⟨rt, hmem, hkey, hactive⟩
        have hspent : (presents (cfg.sha256 q.refreshToken)).next .unread (.selectRefresh hash)
          (some rt) = .spent :=
          if_neg hrevoked
        rw [← hspent]
        exact hok (some rt) trivial
  | active rt =>
    obtain ⟨htoks, -⟩ : (u.world.sessions pid).tokens = [rt] ∧ _ := hf
    rw [htok] at htoks
    cases htoks
  | spent => rcases ha with h | h <;> cases h
  | assigned rt => rcases ha with h | h | h | ⟨r, h⟩ <;> cases h
  | closed => exact absurd ha id
  | failed => exact absurd ha id

/-- A refresh stays one, and issues for whom its token names. -/
private theorem refreshNames_call {q : RefreshRequest} (r : AuthRequest) (o : AuthOp)
    (k : Except ApiErr o.Resp → Auth AuthReply) (rep : Except ApiErr o.Resp)
    (h : r = .refresh q ∧ ∃ φ, (.call o k : Auth AuthReply).Obeys (issuing cfg r) (IssueEnds cfg r) φ) :
    r = .refresh q ∧ ∃ φ, (k rep).Obeys (issuing cfg r) (IssueEnds cfg r) φ := by
  obtain ⟨hreq, φ, -, hok, herr⟩ := h
  refine ⟨hreq, (issuing cfg r).after φ o rep, ?_⟩
  cases rep with
  | ok a => exact hok a trivial
  | error e => exact herr e

/-! ### Whole runs -/

/-- In a run in which no refresh finds its row unrevoked while its user is inactive, every pair of tokens
is issued for a user who is active when the request reads the database. -/
theorem issues_to_active (cfg : AuthSettings) (w : AuthWorld) (ls : List AuthLabel)
    (hm : (authService cfg).Meets (ActiveAtRefresh cfg) (idle w) ls) : IssuesToActive cfg (idle w) ls := by
  intro ls₁ pid out ls₂ u s req r hls hu hreads hnew hs hp
  subst hls
  have hobeys : u.Obeys (issuing cfg) (IssueEnds cfg) NoUsers := issuing_run hu
  have hactive : ActiveAtRefresh cfg u (.call pid out) := (meets_append hm hu).2.1
  rcases hreads with ⟨q, tid, email, k, hproc⟩ | ⟨q, hash, k, hproc, htok⟩
  · have hread := proc_induct_call (G := LoginRead cfg u.world.users.rows) loginRead_call hnew hproc
      (fun rep hrep => loginRead_of_read hobeys hproc hrep) hs _ hp
    exact hread.active
  · by_cases hrow : ∃ row ∈ u.world.refreshTokens.rows, row.key = hash ∧ row.revokedAt = none
    · obtain ⟨φ, hφ, -⟩ := hobeys pid _ hproc
      have hend :=
        proc_induct_call (G := fun p => p.req = .refresh q ∧ ∃ φ,
        p.prog.Obeys (issuing cfg p.req) (IssueEnds cfg p.req) φ)
        refreshNames_call hnew hproc (fun rep _ => refreshNames_call _ (.selectRefresh hash) k rep
          ⟨rfl, φ, hφ⟩) hs _ hp
      obtain ⟨rfl, ψ, hend⟩ := hend
      obtain ⟨id, tid, hn, hpair⟩ := hend r rfl
      obtain ⟨user, hmem, rfl, huser⟩ := hactive q hash k hproc htok hrow id tid hn
      exact ⟨user, hmem, huser, tid, hpair⟩
    · have hspent := proc_induct_call (G := RefreshSpent cfg) refreshSpent_call hnew hproc
        (fun rep hrep => refreshSpent_of_read (inPhase_run hu) hproc htok hrow hrep) hs _ hp
      exact absurd hspent RefreshSpent.not_answered

/-! ### Two runs -/

/-- The user logs in, is deactivated, and presents the refresh token. -/
def deactivatedRun : List AuthLabel :=
  loginRun ++ [.env (.setActive 2 false), .start 1 (.refresh ⟨firstToken⟩), .call 1 .ok]

private theorem readToken_eq_some {p : Option AuthProc} {t : String} (h : readToken p = some t) :
    ∃ hash k, p = some ⟨.refresh ⟨t⟩, .call (.selectRefresh hash) k⟩ := by
  unfold readToken at h
  split at h
  · rename_i req hash k
    obtain rfl := Option.some.inj h
    exact ⟨hash, k, rfl⟩
  · cases h

/-- The refresh is answered with new tokens. -/
theorem not_always_to_active :
    ¬ IssuesToActive plainSettings (idle AuthWorld.oneUser)
      (deactivatedRun ++ .call 1 .ok :: List.replicate 11 (.call 1 .ok)) := by
  have hread : ((authService plainSettings).run (idle AuthWorld.oneUser) deactivatedRun).map (fun u =>
      (readToken (u.procs 1), (u.world.sessions 1).tokens, u.world.users.rows.map User.isActive)) =
        some (some firstToken, [], [false]) := by decide +kernel
  have hanswer : ((authService plainSettings).run (idle AuthWorld.oneUser)
      (deactivatedRun ++ .call 1 .ok :: List.replicate 11 (.call 1 .ok))).map
        (fun s => decide (issuedBy s 1 = [])) = some false := by
    decide +kernel
  obtain ⟨u, hu, hread⟩ := Option.map_eq_some_iff.mp hread
  obtain ⟨s, hs, hanswer⟩ := Option.map_eq_some_iff.mp hanswer
  simp only [Prod.mk.injEq] at hread
  obtain ⟨htoken, hloaded, hinactive⟩ := hread
  obtain ⟨hash, k, hproc⟩ := readToken_eq_some htoken
  obtain ⟨v, hv, hs⟩ := run_append hs
  obtain rfl : u = v := Option.some.inj (hu.symm.trans hv)
  obtain ⟨token, htoken'⟩ := List.exists_mem_of_ne_nil _ (of_decide_eq_false hanswer)
  obtain ⟨req, r, hp, -⟩ := mem_issuedBy.mp htoken'
  have hnew : ∀ q : AuthRequest, (Label.start 1 q : AuthLabel) ∉ List.replicate 11 (.call 1 .ok) := by
    intro q hq
    cases List.eq_of_mem_replicate hq
  intro h
  obtain ⟨user, hmem, hactive, -⟩ :=
    h deactivatedRun 1 .ok _ u s req r rfl hu (Or.inr ⟨_, hash, k, hproc, hloaded⟩) hnew hs hp
  have hmem' := List.mem_map_of_mem (f := User.isActive) hmem
  rw [hinactive, hactive] at hmem'
  cases List.mem_singleton.mp hmem'

/-- A refresh presents the first token, while the user is active. -/
def FirstWhileActive (s : AuthState) : AuthLabel → Prop
  | .call pid _ =>
    ∀ t ∈ (readToken (s.procs pid)).toList, t = firstToken ∧ ∃ u ∈ s.world.users.rows, u.id = 2 ∧
      u.isActive = true
  | _ => True

instance (s : AuthState) : (l : AuthLabel) → Decidable (FirstWhileActive s l)
  | .call pid _ => inferInstanceAs (Decidable (∀ t ∈ (readToken (s.procs pid)).toList,
      t = firstToken ∧ ∃ u ∈ s.world.users.rows, u.id = 2 ∧ u.isActive = true))
  | .start .. | .env _ => isTrue trivial

private theorem presents_firstToken {id tid : Uuid} (h : Presents plainSettings firstToken id tid) :
    id = 2 := by
  obtain ⟨now, p, hp, hid, -⟩ := h
  have hfirst : firstToken = plainSettings.encode ⟨"2", "1", .refresh, "11", 2592000, 0⟩ :=
    by decide +kernel
  rw [hfirst] at hp
  obtain rfl := plain_decode_encode now _ p hp
  exact (Option.some.inj hid).symm

private theorem activeAtRefresh_of_first {s : AuthState} {l : AuthLabel} (h : FirstWhileActive s l) :
    ActiveAtRefresh plainSettings s l := by
  cases l with
  | call pid out =>
    intro q hash k hproc _ _ id tid hpresents
    have hread : q.refreshToken ∈ (readToken (s.procs pid)).toList := by
      rw [hproc]
      exact List.mem_singleton_self _
    obtain ⟨htoken, user, hmem, hid, hactive⟩ := h q.refreshToken hread
    rw [htoken] at hpresents
    exact ⟨user, hmem, hid.trans (presents_firstToken hpresents).symm, hactive⟩
  | _ => trivial

/-- A login and a refresh of an active user. -/
theorem issues_to_active_sequential :
    IssuesToActive plainSettings (idle AuthWorld.oneUser) sequentialRun := by
  have hmeets : (authService plainSettings).Meets FirstWhileActive
    (idle AuthWorld.oneUser) sequentialRun := by decide +kernel
  exact issues_to_active plainSettings AuthWorld.oneUser sequentialRun
    (Meets.imp (fun _ _ h => activeAtRefresh_of_first h) hmeets)

end LegalRag
