import LegalRag.Auth.Phases

/-!
# Refresh tokens are used once

`SingleUse` is the law of refresh-token rotation for a run.  It can fail: the check of the row and its
revocation are separated by other calls, and nothing locks the row (`accepted_twice`).  It holds in the
runs in which no refresh reads the row of its token while another refresh, which has found the same row
active, is still under way (`single_use`).

`live_step` is the step lemma: the only way for a refresh to become one that may be accepted is to read an
active row.
-/

namespace LegalRag

open Calls Prog Service Relational

variable (cfg : AuthSettings)

abbrev AuthProc := Proc AuthCalls ApiErr AuthRequest AuthReply

/-- The token of a refresh that has been answered with new tokens. -/
def answeredToken : Option AuthProc → Option String
  | some ⟨.refresh req, .done (.ok _)⟩ => some req.refreshToken
  | _ => none

/-- The token of a refresh that has not ended. -/
def openToken : Option AuthProc → Option String
  | some ⟨.refresh req, .call _ _⟩ => some req.refreshToken
  | _ => none

/-- The token of a refresh that is about to read the row of its token. -/
def readToken : Option AuthProc → Option String
  | some ⟨.refresh req, .call (.selectRefresh _) _⟩ => some req.refreshToken
  | _ => none

/-- The refresh `pid` of the token `t` has been accepted. -/
def Accepted (t : String) (pid : Nat) (s : AuthState) : Prop := answeredToken (s.procs pid) = some t

/-- The session holds the row of a token as active, or has revoked it and not committed that. -/
def AuthSession.Holds (h : String) (s : AuthSession) : Prop :=
  ∃ rt ∈ s.tokens, rt.key = h ∧ (rt.revokedAt = none ∨ rt.id ∈ s.revoked.map Prod.fst)

/-- A refresh of the token `t` that has found it active, and is still under way. -/
def UnderWay (t : String) (pid : Nat) (s : AuthState) : Prop :=
  openToken (s.procs pid) = some t ∧ (s.world.sessions pid).Holds (cfg.sha256 t)

/-- A refresh does not read the row of its token while another one that has found it active is under way.
-/
def NoOverlap (s : AuthState) : AuthLabel → Prop
  | .call pid _ => ∀ t ∈ readToken (s.procs pid), ∀ q, q ≠ pid → ¬ UnderWay cfg t q s
  | _ => True

/-- In this step the transaction of a logout of the token `t`, which has found its row, is committed. -/
def CommitsLogout (t : String) (s : AuthState) (l : AuthLabel) : Prop :=
  ∃ pid out k, l = .call pid out ∧ s.procs pid = some ⟨.logout ⟨t⟩, .call .commit k⟩ ∧
    out.applied = true ∧
    (∃ rt ∈ (s.world.sessions pid).tokens, rt.key = cfg.sha256 t) ∧
    (s.world.applyCommit (s.world.sessions pid)).isSome

/-- The process `pid` has not started, or has not loaded a token row. -/
def NotRead (pid : Nat) (s : AuthState) : Prop := s.procs pid = none ∨ (s.world.sessions pid).tokens = []

/-- The law of a run: a token is accepted by at most one refresh, and by none that reads it after a
committed logout of the token. -/
structure SingleUse (s₀ : AuthState) (ls : List AuthLabel) : Prop where
  once : ∀ s, (authService cfg).run s₀ ls = some s → ∀ t p q, Accepted t p s → Accepted t q s → p = q
  afterLogout : ∀ ls₁ l ls₂ ls₃ t q u v s, ls = ls₁ ++ l :: ls₂ ++ ls₃ →
    (authService cfg).run s₀ ls₁ = some u →
    CommitsLogout cfg t u l → (authService cfg).run u (l :: ls₂) = some v → NotRead q v →
    (authService cfg).run v ls₃ = some s → ¬ Accepted t q s

/-- A refresh that may still be accepted, or has been. -/
def Live (t : String) (pid : Nat) (s : AuthState) : Prop := UnderWay cfg t pid s ∨ Accepted t pid s

variable {cfg}

private theorem answeredToken_eq_some {p : Option AuthProc} {t : String} (h : answeredToken p = some t) :
    ∃ r, p = some ⟨.refresh ⟨t⟩, .done (.ok r)⟩ := by
  unfold answeredToken at h
  split at h
  · rename_i req r
    cases h
    exact ⟨r, rfl⟩
  · cases h

private theorem openToken_eq_some {p : Option AuthProc} {t : String} :
    openToken p = some t ↔ ∃ o k, p = some ⟨.refresh ⟨t⟩, .call o k⟩ := by
  unfold openToken
  constructor
  · intro h
    split at h
    · rename_i req o k
      cases h
      exact ⟨o, k, rfl⟩
    · cases h
  · rintro ⟨o, k, rfl⟩
    rfl

private theorem underWay_iff {t : String} {pid : Nat} {s : AuthState} :
    UnderWay cfg t pid s ↔ ∃ o k, s.procs pid = some ⟨.refresh ⟨t⟩, .call o k⟩ ∧
      (s.world.sessions pid).Holds (cfg.sha256 t) := by
  unfold UnderWay
  rw [openToken_eq_some]
  constructor
  · rintro ⟨⟨o, k, hp⟩, hh⟩
    exact ⟨o, k, hp, hh⟩
  · rintro ⟨o, k, hp, hh⟩
    exact ⟨⟨o, k, hp⟩, hh⟩

/-- An accepted refresh has committed: the row of its token is revoked. -/
theorem Accepted.knows {t : String} {pid : Nat} {s : AuthState} (hs : InPhase cfg s) (ha : Accepted t pid s) :
    Knows (cfg.sha256 t) (s.world.sessions pid) .closed s.world := by
  obtain ⟨r, hp⟩ := answeredToken_eq_some ha
  obtain ⟨φ, hφ, hf⟩ := hs pid _ hp
  have hclosed : φ = .closed := hφ ⟨r, rfl⟩
  rwa [hclosed] at hf

private theorem live_of_procs {t : String} {pid : Nat} {s s' : AuthState} (hp : s'.procs pid = s.procs pid)
    (hw : s'.world.sessions pid = s.world.sessions pid) (h : Live cfg t pid s') : Live cfg t pid s := by
  unfold Live UnderWay Accepted at h ⊢
  rwa [hp, hw] at h

/-- A session that has loaded nothing holds no row. -/
private theorem not_holds_of_nil {h : String} {s : AuthSession} (hs : s.tokens = []) : ¬ s.Holds h := by
  rintro ⟨rt, hrt, -⟩
  rw [hs] at hrt
  cases hrt

/-- While it is in the phases between the first read and the commit, a refresh holds the row. -/
private theorem Knows.holds {h : String} {s : AuthSession} {rt : RefreshToken} {w : AuthWorld}
    (hk : Knows h s (.active rt) w ∨ Knows h s (.assigned rt) w) : s.Holds h := by
  rcases hk with ⟨htok, hkey, hrt, -⟩ | ⟨⟨r, hr, hid, hkey⟩, ⟨t, hrev⟩, -⟩
  · exact ⟨rt, by rw [htok]; exact List.mem_singleton_self rt, hkey, Or.inl hrt⟩
  · refine ⟨r, hr, hkey, Or.inr ?_⟩
    rw [hrev, hid]
    exact List.mem_singleton_self _

/-- A call after which the session holds the row: it held it before, or the call has read an active row.
-/
private theorem holds_call {h : String} {pid : Nat} {φ : Phase} {o : AuthCalls.Op} {w : AuthWorld}
    (ha : (presents h).allows φ o) (hk : Knows h (w.sessions pid) φ w)
    (hh : ((authReply pid o w).2.sessions pid).Holds h) :
    (w.sessions pid).Holds h ∨
      o = .selectRefresh h ∧ ∃ row ∈ w.refreshTokens.rows, row.key = h ∧ row.revokedAt = none := by
  cases φ with
  | unread =>
    rcases ha with rfl | rfl
    · exact Or.inl hh
    · right
      obtain ⟨htok, hrev, hnew⟩ := hk
      cases hf : w.findToken pid h with
      | none =>
        simp only [authReply, hf] at hh
        exact absurd hh (not_holds_of_nil htok)
      | some row =>
        obtain ⟨hm, hkey⟩ := findToken_eq_some hnew hf
        simp only [authReply, hf, AuthWorld.setSession, Function.update_self, AuthSession.load, htok,
          List.any_nil, Bool.false_eq_true, if_false] at hh
        obtain ⟨rt, hrt, -, hrow⟩ := hh
        have he : rt = row := by simpa using hrt
        rw [he, hrev] at hrow
        exact ⟨rfl, row, hm, hkey, hrow.resolve_right (by simp)⟩
  | spent =>
    rcases ha with rfl | rfl
    · exact Or.inl hh
    · left
      obtain ⟨-, hrev, -⟩ := hk
      cases hc : w.applyCommit (w.sessions pid) with
      | none =>
        simp only [authReply, hc, AuthWorld.setSession, Function.update_self] at hh
        exact absurd hh (not_holds_of_nil rfl)
      | some w' =>
        simp only [authReply, hc, AuthWorld.setSession, Function.update_self] at hh
        obtain ⟨rt, hrt, hkey, hrow⟩ := hh
        exact ⟨rt, hrt, hkey, Or.inl (hrow.resolve_right (by simp [AuthSession.fresh]))⟩
  | active rt => exact Or.inl (Knows.holds (Or.inl hk))
  | assigned rt => exact Or.inl (Knows.holds (Or.inr hk))
  | closed => exact absurd ha id
  | failed => exact absurd ha id

/-- The step `l` is the read of an active row by the refresh `pid` of the token `t`. -/
def ReadsActive (cfg : AuthSettings) (t : String) (pid : Nat) (s : AuthState) (l : AuthLabel) : Prop :=
  ∃ out k, l = .call pid out ∧ s.procs pid =
    some ⟨.refresh ⟨t⟩, .call (.selectRefresh (cfg.sha256 t)) k⟩ ∧
    ∃ row ∈ s.world.refreshTokens.rows, row.key = cfg.sha256 t ∧ row.revokedAt = none

/-- A refresh is live after a step only if it was live before, or has just read an active row. -/
theorem live_step {s s' : AuthState} {l : AuthLabel} {t : String} {q : Nat} (hs : InPhase cfg s)
    (h : (authService cfg).step s l = some s') (hl : Live cfg t q s') :
    Live cfg t q s ∨ ReadsActive cfg t q s l := by
  have hs' := inPhase_step hs h
  by_cases hq : l.pid = some q
  · rcases step_cases h with ⟨pid, r, rfl, -, rfl⟩ | ⟨pid, out, r, o, k, rfl, hproc, rfl⟩ |
      ⟨e, w, rfl, -, rfl⟩
    · -- a request that begins has a new session
      obtain rfl : pid = q := by simpa [Label.pid] using hq
      have hfresh : ((s.set ((authService cfg).enter pid s.world) pid
          (some ⟨r, (authService cfg).program r⟩)).world.sessions pid).tokens = [] := by
        simp [authService, AuthWorld.openSession, AuthSession.fresh]
      rcases hl with hl | hl
      · obtain ⟨o, k, -, hh⟩ := underWay_iff.mp hl
        exact absurd hh (not_holds_of_nil hfresh)
      · exact absurd hfresh (Accepted.knows hs' hl).1
    · obtain rfl : pid = q := by simpa [Label.pid] using hq
      obtain ⟨φ, ⟨ha, hok, herr⟩, hf⟩ := hs pid _ hproc
      have hworld : out.world ((authService cfg).handle pid r) o s.world = s.world ∨
          out.world ((authService cfg).handle pid r) o s.world = (authReply pid o s.world).2 :=
        Outcome.world_eq _ o s.world out
      rcases hl with hl | hl
      · obtain ⟨o', k', hp', hh⟩ := underWay_iff.mp hl
        rw [resume_world] at hh
        have hr : r = .refresh ⟨t⟩ := by
          cases hrep : out.reply ((authService cfg).handle pid r) o s.world with
          | none => simp [resume, hrep] at hp'
          | some rep =>
            simp only [resume, hrep, State.set_procs_self, Option.some.injEq, Proc.mk.injEq] at hp'
            exact hp'.1
        subst hr
        have hbefore : (s.world.sessions pid).Holds (cfg.sha256 t) → Live cfg t pid s := fun hb =>
          Or.inl (underWay_iff.mpr ⟨o, k, hproc, hb⟩)
        rcases hworld with hw | hw <;> rw [hw] at hh
        · exact Or.inl (hbefore hh)
        · rcases holds_call ha hf hh with hb | ⟨rfl, hrow⟩
          · exact Or.inl (hbefore hb)
          · exact Or.inr ⟨out, k, rfl, hproc, hrow⟩
      · -- the answer comes with the commit, and before that the refresh held the row
        left
        obtain ⟨a, hp'⟩ := answeredToken_eq_some hl
        cases hrep : out.reply ((authService cfg).handle pid r) o s.world with
        | none => simp [resume, hrep] at hp'
        | some rep =>
          simp only [resume, hrep, State.set_procs_self, Option.some.injEq, Proc.mk.injEq] at hp'
          obtain ⟨rfl, hdone⟩ := hp'
          cases rep with
          | error e =>
            have hend := herr e
            rw [hdone] at hend
            exact absurd (hend ⟨a, rfl⟩) (by simp [authProtocol, presents])
          | ok x =>
            have hout : out = .ok := by
              cases out with
              | ok => rfl
              | raised e applied => simp [Outcome.reply] at hrep
              | crashed applied => simp [Outcome.reply] at hrep
            subst hout
            simp only [Outcome.reply, Option.some.injEq] at hrep
            obtain ⟨hra, -⟩ := knows_call ha hf x hrep
            have hend := hok x hra
            rw [hdone] at hend
            have hclosed : (presents (cfg.sha256 t)).next φ o x = .closed := hend ⟨a, rfl⟩
            refine Or.inl (underWay_iff.mpr ⟨o, k, hproc, ?_⟩)
            cases φ with
            | active rt => exact Knows.holds (Or.inl hf)
            | assigned rt => exact Knows.holds (Or.inr hf)
            | unread =>
              rcases ha with rfl | rfl
              · cases hclosed
              · cases x with
                | none => cases hclosed
                | some rt =>
                  simp only [presents] at hclosed
                  split at hclosed <;> cases hclosed
            | spent => rcases ha with rfl | rfl <;> cases hclosed
            | closed => exact absurd ha id
            | failed => exact absurd ha id
    · simp [Label.pid] at hq
  · left
    exact live_of_procs (step_procs hq h) ((auth_step_grows h).2 q hq) hl

/-! ### At most one refresh -/

/-- At most one refresh of each token is live. -/
def OneLive (cfg : AuthSettings) (s : AuthState) : Prop :=
  InPhase cfg s ∧ ∀ t p q, Live cfg t p s → Live cfg t q s → p = q

/-- A refresh that reads an active row under `NoOverlap` is the only one that is live. -/
private theorem not_live_of_reads {s : AuthState} {l : AuthLabel} {t : String} {p q : Nat}
    (hs : InPhase cfg s) (hc : NoOverlap cfg s l) (hr : ReadsActive cfg t q s l) (hne : p ≠ q) :
    ¬ Live cfg t p s := by
  obtain ⟨out, k, rfl, hproc, row, hm, hkey, hactive⟩ := hr
  rintro (hl | hl)
  · have hread : t ∈ readToken (s.procs q) := by
      rw [hproc]
      rfl
    exact hc t hread p hne hl
  · -- an accepted refresh has revoked the row
    obtain ⟨-, -, hrev⟩ := Accepted.knows hs hl
    exact hrev.not_active hm hkey hactive

private theorem oneLive_step {s s' : AuthState} {l : AuthLabel} (hi : OneLive cfg s) (hc : NoOverlap cfg s l)
    (h : (authService cfg).step s l = some s') : OneLive cfg s' := by
  obtain ⟨hs, hone⟩ := hi
  refine ⟨inPhase_step hs h, fun t p q hp hq => ?_⟩
  by_contra hne
  rcases live_step hs h hp with hp | hp
  · rcases live_step hs h hq with hq | hq
    · exact hne (hone t p q hp hq)
    · exact not_live_of_reads hs hc hq hne hp
  · rcases live_step hs h hq with hq | hq
    · exact not_live_of_reads hs hc hp (Ne.symm hne) hq
    · obtain ⟨out, k, hlp, -⟩ := hp
      obtain ⟨out', k', hlq, -⟩ := hq
      rw [hlp] at hlq
      cases hlq
      exact hne rfl

private theorem oneLive_idle (w : AuthWorld) : OneLive cfg (idle w) := by
  refine ⟨idle_obeys _ _ _ w, ?_⟩
  rintro t p q (⟨hp, -⟩ | hp) -
  · cases hp
  · cases hp

/-! ### None after a logout -/

/-- A committed logout has revoked the row. -/
private theorem revoked_of_logout {s s' : AuthState} {l : AuthLabel} {t : String} (hs : InPhase cfg s)
    (hl : CommitsLogout cfg t s l) (h : (authService cfg).step s l = some s') :
    s'.world.Revoked (cfg.sha256 t) := by
  have hg := (auth_step_grows h).1
  obtain ⟨pid, out, k, rfl, hproc, happ, ⟨rt, hrt, hkey⟩, hcommit⟩ := hl
  obtain ⟨φ, ⟨ha, -, -⟩, hf⟩ := hs pid _ hproc
  have hnil : (s.world.sessions pid).tokens ≠ [] := List.ne_nil_of_mem hrt
  cases φ with
  | unread => rcases ha with h | h <;> cases h
  | spent =>
    have hrev := hf.1.resolve_left hnil
    exact hrev.grows hg
  | active rt => rcases ha with h | h | ⟨t, h⟩ <;> cases h
  | assigned rt =>
    obtain ⟨-, ⟨at', hrev⟩, hrow⟩ := hf
    obtain ⟨w', hw'⟩ := Option.isSome_iff_exists.mp hcommit
    have hrevoked := applyCommit_revoked hw' hrev hrow
    simp only [step, hproc, Option.some.injEq] at h
    rw [← h, resume_world, Outcome.world_of_applied happ]
    simp only [authService, authReply, hw']
    exact hrevoked
  | closed => exact absurd ha id
  | failed => exact absurd ha id

/-- Once the row is revoked, a refresh that is not live does not become so. -/
private theorem not_live_step {s s' : AuthState} {l : AuthLabel} {t : String} {q : Nat}
    (hi : InPhase cfg s ∧ s.world.Revoked (cfg.sha256 t) ∧ ¬ Live cfg t q s)
    (h : (authService cfg).step s l = some s') :
    InPhase cfg s' ∧ s'.world.Revoked (cfg.sha256 t) ∧ ¬ Live cfg t q s' := by
  obtain ⟨hs, hrev, hl⟩ := hi
  refine ⟨inPhase_step hs h, hrev.grows (auth_step_grows h).1, fun hl' => ?_⟩
  rcases live_step hs h hl' with hl' | ⟨out, k, -, -, row, hm, hkey, hactive⟩
  · exact hl hl'
  · exact hrev.not_active hm hkey hactive

private theorem NotRead.not_live {s : AuthState} {t : String} {q : Nat} (hs : InPhase cfg s)
    (hq : NotRead q s) : ¬ Live cfg t q s := by
  rintro (hl | hl)
  · obtain ⟨o, k, hp, hh⟩ := underWay_iff.mp hl
    rcases hq with hq | hq
    · rw [hq] at hp
      cases hp
    · exact not_holds_of_nil hq hh
  · have hk := Accepted.knows hs hl
    obtain ⟨r, hp⟩ := answeredToken_eq_some hl
    rcases hq with hq | hq
    · rw [hq] at hp
      cases hp
    · exact hk.1 hq

private theorem revoked_run {s s' : AuthState} {ls : List AuthLabel} {h : String} (hr : s.world.Revoked h)
    (hrun : (authService cfg).run s ls = some s') : s'.world.Revoked h := by
  have hstep : ∀ s l s', s.world.Revoked h → True → (authService cfg).step s l = some s' →
      s'.world.Revoked h := by
    intro s l s' hi _ hs
    exact hi.grows (auth_step_grows hs).1
  exact run_induct hstep hr (meets_true _ ls) hrun

/-- Refresh tokens are single-use in every run in which no refresh reads the row of its token while
another one that has found it active is under way. -/
theorem single_use (cfg : AuthSettings) (w : AuthWorld) (ls : List AuthLabel)
    (hm : (authService cfg).Meets (NoOverlap cfg) (idle w) ls) : SingleUse cfg (idle w) ls where
  once s hrun t p q hp hq := by
    have hone : OneLive cfg s := run_induct (fun _ _ _ hi hc hs => oneLive_step hi hc hs)
      (oneLive_idle w) hm hrun
    exact hone.2 t p q (Or.inr hp) (Or.inr hq)
  afterLogout ls₁ l ls₂ ls₃ t q u v s _ hu hl hv hq hs := by
    have hphase := inPhase_run hu
    obtain ⟨u', hu', hv'⟩ := run_cons hv
    have hrev : v.world.Revoked (cfg.sha256 t) := revoked_run (revoked_of_logout hphase hl hu') hv'
    have hphase' : InPhase cfg v :=
      run_induct (fun _ _ _ hi _ hs => inPhase_step hi hs) hphase (meets_true _ _) hv
    have hend := run_induct (fun _ _ _ hi _ hs => not_live_step hi hs)
      ⟨hphase', hrev, hq.not_live hphase'⟩ (meets_true _ ls₃) hs
    exact fun ha => hend.2.2 (Or.inr ha)

/-! ### Two runs -/

instance (h : String) (s : AuthSession) : Decidable (s.Holds h) :=
  inferInstanceAs (Decidable (∃ rt ∈ s.tokens, rt.key = h ∧
    (rt.revokedAt = none ∨ rt.id ∈ s.revoked.map Prod.fst)))

instance (cfg : AuthSettings) (t : String) (pid : Nat) (s : AuthState) : Decidable (UnderWay cfg t pid s) :=
  inferInstanceAs (Decidable (_ ∧ _))

/-- `NoOverlap` for the processes numbered below `n`. -/
def NoOverlapBelow (cfg : AuthSettings) (n : Nat) (s : AuthState) : AuthLabel → Prop
  | .call pid _ => ∀ t ∈ (readToken (s.procs pid)).toList, ∀ q < n, q ≠ pid → ¬ UnderWay cfg t q s
  | _ => True

instance (cfg : AuthSettings) (n : Nat) (s : AuthState) : (l : AuthLabel) →
    Decidable (NoOverlapBelow cfg n s l)
  | .call pid _ =>
    inferInstanceAs (Decidable (∀ t ∈ (readToken (s.procs pid)).toList, ∀ q < n, q ≠ pid →
      ¬ UnderWay cfg t q s))
  | .start .. | .env _ => isTrue trivial

private theorem noOverlap_of_below {n : Nat} {s : AuthState} {l : AuthLabel} (hs : s.Below n)
    (h : NoOverlapBelow cfg n s l) : NoOverlap cfg s l := by
  cases l with
  | start pid r => trivial
  | env e => trivial
  | call pid out =>
    intro t ht q hne hu
    by_cases hq : q < n
    · exact h t (Option.mem_toList.mpr ht) q hq hne hu
    · obtain ⟨o, k, hp, -⟩ := underWay_iff.mp hu
      rw [hs q (by omega)] at hp
      cases hp

/-- Tokens in clear text. -/
def plainEncode (p : TokenPayload) : String :=
  ".".intercalate [p.sub, p.tid, if p.typ = .refresh then "refresh" else "access", p.jti, toString p.exp,
    toString p.iat]

/-- What `plainEncode` makes is accepted until it expires. -/
def plainDecode (now : Nat) (token : String) : Except ApiErr TokenPayload :=
  match token.toList.splitOn '.' with
  | [sub, tid, typ, jti, exp, iat] =>
    match readDecimal exp, readDecimal iat with
    | some e, some i =>
      if e ≤ now / second then .error (.other "Signature has expired")
      else .ok ⟨.ofList sub, .ofList tid, if typ = "refresh".toList then .refresh else .access,
        .ofList jti, e, i⟩
    | _, _ => .error (.other "Invalid payload")
  | _ => .error (.other "Not enough segments")

def plainSettings : AuthSettings where
  jwtAccessTtlMin := 15
  jwtRefreshTtlDays := 30
  encode := plainEncode
  decode := plainDecode
  sha256 token := "sha256:" ++ token
  argon2 salt plain := toString salt ++ "$" ++ plain
  verify hashed plain := .ok (hashed.toList.dropWhile (· ≠ '$') = '$' :: plain.toList)
  lower := id

/-- One tenant with one user. -/
def AuthWorld.oneUser : AuthWorld where
  clock := 0
  nextUuid := 10
  tenants := ⟨[⟨1, "default", "default"⟩], by decide⟩
  users := ⟨[⟨⟨1, "an@example.vn", "7$secret", none⟩, 2, true, none⟩], by decide⟩
  refreshTokens := ⟨[], by decide⟩
  sessions _ := AuthSession.fresh

/-- The user logs in. -/
def loginRun : List AuthLabel :=
  .start 0 (.login ⟨"an@example.vn", "secret", "default", none, none⟩) :: List.replicate 12 (.call 0 .ok)

/-- The refresh token that the login returns. -/
def firstToken : String := "2.1.refresh.11.2592000.0"

/-- Two refreshes with the token of the login, of which both read its row before either commits. -/
def overlappingRun : List AuthLabel :=
  loginRun ++ .start 1 (.refresh ⟨firstToken⟩) :: .start 2 (.refresh ⟨firstToken⟩) ::
    (List.replicate 2 (.call 1 .ok) ++ List.replicate 13 (.call 2 .ok) ++ List.replicate 11 (.call 1 .ok))

/-- Both refreshes are answered with new tokens. -/
theorem accepted_twice : ¬ SingleUse plainSettings (idle AuthWorld.oneUser) overlappingRun := by
  have hboth : ((authService plainSettings).run (idle AuthWorld.oneUser) overlappingRun).map
      (fun s => (answeredToken (s.procs 1), answeredToken (s.procs 2))) =
      some (some firstToken, some firstToken) := by
    decide +kernel
  obtain ⟨s, hrun, hs⟩ := Option.map_eq_some_iff.mp hboth
  simp only [Prod.mk.injEq] at hs
  intro h
  have heq := h.once s hrun firstToken 1 2 hs.1 hs.2
  omega

/-- The same two refreshes, one after the other. -/
def sequentialRun : List AuthLabel :=
  loginRun ++ .start 1 (.refresh ⟨firstToken⟩) :: (List.replicate 13 (.call 1 .ok) ++
    .start 2 (.refresh ⟨firstToken⟩) :: List.replicate 2 (.call 2 .ok))

/-- The first refresh is accepted and the second is not. -/
theorem single_use_sequential :
    ((authService plainSettings).run (idle AuthWorld.oneUser) sequentialRun).map
      (fun s => (answeredToken (s.procs 1), answeredToken (s.procs 2))) = some (some firstToken, none) ∧
    SingleUse plainSettings (idle AuthWorld.oneUser) sequentialRun := by
  refine ⟨by decide +kernel, single_use plainSettings AuthWorld.oneUser sequentialRun ?_⟩
  refine meets_of_below 3 (NoOverlapBelow plainSettings 3) (fun s l hs h => noOverlap_of_below hs h)
    (idle_below 3 _) ?_
  decide +kernel

end LegalRag
