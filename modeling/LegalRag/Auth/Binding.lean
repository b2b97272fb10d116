import LegalRag.Auth.Accounts
import LegalRag.Auth.Issuing
import LegalRag.Auth.SingleUse

/-!
# Tokens and their users

`current_user` and `refresh` take the user and the tenant from the token and never compare them with a
row.  That is sound, as long as tokens are not forged: in every state of a run each token that was ever
issued carries the id and the tenant of a user of the table, and each row of `refresh_tokens` has the user
of the token whose hash it stores (`tokens_bound`).

`Bound` is the invariant.  `program_issues` says whom a request issues tokens for: whom it has read, or
whom the token names that it presents, and that token was issued before.
-/

namespace LegalRag

open Calls Prog Service Relational

variable (cfg : AuthSettings)

/-- The token was made for the user, and tells so to everyone who decodes it. -/
structure Carries (u : User) (token : String) : Prop where
  made : CarriedBy cfg u.id u.tenantId token
  told : ∀ now p, cfg.decode now token = .ok p → p.sub = toString u.id ∧ p.tid = toString u.tenantId

/-- The tokens that a request has been answered with. -/
def issuedBy (s : AuthState) (pid : Nat) : List String :=
  match s.result pid with
  | some (.ok (.tokens r)) => [r.accessToken, r.refreshToken]
  | _ => []

/-- A token that some request has been answered with. -/
def Issued (s : AuthState) (token : String) : Prop := ∃ pid, token ∈ issuedBy s pid

/-- A token that is presented to `refresh` and that decodes has been issued. -/
def Unforged (s : AuthState) : AuthLabel → Prop
  | .start _ (.refresh req) =>
    ∀ now p, cfg.decode now req.refreshToken = .ok p → Issued s req.refreshToken
  | _ => True

/-- Tokens, their rows and the users belong together. -/
structure TokensBound (s : AuthState) : Prop where
  ids : (s.world.users.rows.map User.id).Nodup
  issued : ∀ token, Issued s token → ∃ u ∈ s.world.users.rows, Carries cfg u token
  stored : ∀ row ∈ s.world.refreshTokens.rows, ∃ token tid, CarriedBy cfg row.userId tid token ∧
    row.tokenHash = cfg.sha256 token
  rows : ∀ row ∈ s.world.refreshTokens.rows, ∀ token, row.tokenHash = cfg.sha256 token →
    ∀ now p, cfg.decode now token = .ok p → p.sub = toString row.userId
  refreshed : ∀ pid req r, s.procs pid = some ⟨.refresh req, .done (.ok (.tokens r))⟩ →
    ∃ row ∈ s.world.refreshTokens.rows, row.tokenHash = cfg.sha256 req.refreshToken ∧
      ∃ u ∈ s.world.users.rows, u.id = row.userId ∧ Carries cfg u r.accessToken ∧ Carries cfg u r.refreshToken

/-- A database without refresh tokens, whose users have ids that were given to them. -/
structure AuthWorld.Initial (w : AuthWorld) : Prop where
  tokens : w.refreshTokens.rows = []
  ids : (w.users.rows.map User.id).Nodup
  given : ∀ u ∈ w.users.rows, u.id < w.nextUuid
  sessions : ∀ pid, w.sessions pid = AuthSession.fresh

/-! ### The invariant -/

/-- The row is that of a token that carries its user. -/
def RowMade (r : NewRefreshToken) : Prop := ∃ id tid, RowFor cfg id tid r

/-- What a request knows: the rows that it has inserted are those of their tokens, whom it names is a
user, and it has inserted no user unless it is a registration. -/
structure IssueFits (req : AuthRequest) (pid : Nat) (φ : IssuePhase) (w : AuthWorld) : Prop where
  made : ∀ r ∈ (w.sessions pid).newTokens, RowMade cfg r.toNewRefreshToken
  named : ∀ id tid, Names cfg req φ id tid → w.HasUser id tid
  noUsers : (∀ q, req ≠ .register q) → (w.sessions pid).newUsers = []

/-- The invariant. -/
structure Bound (s : AuthState) : Prop where
  obeys : s.Obeys (issuing cfg) (IssueEnds cfg) (IssueFits cfg)
  made : ∀ r ∈ s.world.refreshTokens.rows, RowMade cfg r.toNewRefreshToken
  apart : Relational.Apart s.world.userIdsAt s.world.nextUuid

variable {cfg}

/-! ### One call -/

section Call

variable {req : AuthRequest} {pid : Nat} {φ : IssuePhase} {o : AuthOp} {w : AuthWorld}

/-- The user that a session finds that has inserted none. -/
theorem mem_of_selectUser {tid : Uuid} {email : String} {u : User} (hnil : (w.sessions pid).newUsers = [])
    (h : (authReply pid (.selectUser tid email) w).1 = .ok (some u)) :
    u ∈ w.users.rows ∧ u.tenantId = tid := by
  have hfind : (w.users.rows ++ (w.sessions pid).newUsers).find? (fun u => u.key = (tid, email)) = some u :=
    Except.ok.inj h
  rw [hnil, List.append_nil] at hfind
  have hkey : u.key = (tid, email) := by simpa using List.find?_some hfind
  exact ⟨List.mem_of_find?_eq_some hfind, congrArg Prod.fst hkey⟩

/-- A call that fails names nobody new. -/
private theorem names_of_failed {e : ApiErr} {id tid : Uuid}
    (h : Names cfg req ((issuing cfg req).failed φ o e) id tid) : Names cfg req φ id tid := by
  cases req with
  | refresh q => exact h
  | login q =>
    cases o with
    | selectUser t email => cases φ <;> exact h.elim
    | _ => cases φ <;> exact h
  | register q => exact h.elim
  | logout q => exact h.elim

/-- Whom a request names after a call is a user: it is named before, or its row has just been read. -/
private theorem named_next (hf : IssueFits cfg req pid φ w) {a : o.Resp} (hr : (authReply pid o w).1 = .ok a)
    {id tid : Uuid} (hn : Names cfg req ((issuing cfg req).next φ o a) id tid) :
    (authReply pid o w).2.HasUser id tid := by
  cases o with
  | selectUser t email =>
    cases a with
    | none =>
      cases req with
      | refresh q => exact hf.named id tid hn
      | login q | register q | logout q => cases φ <;> exact hn.elim
    | some u =>
      cases req with
      | login q =>
        obtain ⟨rfl, rfl, -⟩ : id = u.id ∧ tid = t ∧ u.isActive = true := by cases φ <;> exact hn
        obtain ⟨hu, htid⟩ := mem_of_selectUser (hf.noUsers fun _ h => by cases h) hr
        exact ⟨u, hu, rfl, htid⟩
      | refresh q => exact hf.named id tid hn
      | register q => exact hn.elim
      | logout q => exact hn.elim
  | _ => exact authReply_hasUser pid _ w (hf.named id tid (by cases φ <;> exact hn))

/-- Only a registration inserts a user. -/
theorem newUsers_call (ha : (issuing cfg req).allows φ o) (hreq : ∀ q, req ≠ .register q)
    (h : (w.sessions pid).newUsers = []) : ((authReply pid o w).2.sessions pid).newUsers = [] := by
  refine (authReply_ids pid o w).newUsers (fun u ho => ?_) h
  subst ho
  obtain ⟨q, hq⟩ : ∃ q, req = .register q := by cases φ <;> exact ha
  exact hreq q hq

/-- A session after a call keeps what is required of it. -/
private theorem issueFits_session (ha : (issuing cfg req).allows φ o) (hf : IssueFits cfg req pid φ w)
    {ψ : IssuePhase} (hnamed : ∀ id tid, Names cfg req ψ id tid → (authReply pid o w).2.HasUser id tid) :
    IssueFits cfg req pid ψ (authReply pid o w).2 where
  made r hr := by
    rcases authReply_newTokens hr with hr | rfl
    · exact hf.made r hr
    · obtain ⟨id, tid, -, hrow⟩ : ∃ id tid, Names cfg req φ id tid ∧
          RowFor cfg id tid r.toNewRefreshToken := by
        cases φ <;> exact ha
      exact ⟨id, tid, hrow⟩
  named := hnamed
  noUsers hreq := newUsers_call ha hreq (hf.noUsers hreq)

private theorem IssueFits.call (ha : (issuing cfg req).allows φ o) (hf : IssueFits cfg req pid φ w)
    {out : Outcome ApiErr} {rep : Except ApiErr o.Resp} (hrep : out.reply (authReply pid) o w = some rep) :
    (∀ a, rep = .ok a → (issuing cfg req).replies φ o a) ∧
      IssueFits cfg req pid ((issuing cfg req).after φ o rep) (out.world (authReply pid) o w) := by
  refine Protocol.after_fits (fun a hr => ⟨trivial, ?_⟩) (fun e v hv => ?_) hrep
  · exact issueFits_session ha hf fun id tid hn => named_next hf hr hn
  · have hnamed : ∀ id tid, Names cfg req ((issuing cfg req).failed φ o e) id tid → w.HasUser id tid :=
      fun id tid hn => hf.named id tid (names_of_failed hn)
    rcases hv with rfl | rfl
    · exact ⟨hf.made, hnamed, hf.noUsers⟩
    · exact issueFits_session ha hf fun id tid hn => authReply_hasUser pid o w (hnamed id tid hn)

/-- The steps of the others. -/
private theorem IssueFits.others (hf : IssueFits cfg req pid φ w) {w' : AuthWorld}
    (hs : w'.sessions pid = w.sessions pid) (hu : ∀ id tid, w.HasUser id tid → w'.HasUser id tid) :
    IssueFits cfg req pid φ w' where
  made := by
    rw [hs]
    exact hf.made
  named id tid hn := hu id tid (hf.named id tid hn)
  noUsers := by
    rw [hs]
    exact hf.noUsers

end Call

/-! ### One step -/

section Step

variable {s s' : AuthState} {l : AuthLabel}

/-- Users stay, with their id and their tenant. -/
private theorem hasUser_step (h : (authService cfg).step s l = some s') {id tid : Uuid}
    (hu : s.world.HasUser id tid) : s'.world.HasUser id tid := by
  rcases step_cases h with ⟨pid, r, rfl, -, rfl⟩ | ⟨pid, out, r, o, k, rfl, hproc, rfl⟩ | ⟨e, w, rfl, hw, rfl⟩
  · exact hu
  · rw [resume_world]
    rcases Outcome.world_eq ((authService cfg).handle pid r) o s.world out with hw | hw
    · rw [hw]
      exact hu
    · rw [hw]
      exact authReply_hasUser pid o s.world hu
  · exact (authEnv_effect hw).users id tid hu

/-- A pair of tokens that was issued is for a user whom the request names. -/
private theorem Bound.pair (hb : Bound cfg s) {pid : Nat} {req : AuthRequest} {r : TokenResponse}
    (hp : s.procs pid = some ⟨req, .done (.ok (.tokens r))⟩) :
    ∃ φ, ∃ u ∈ s.world.users.rows, Names cfg req φ u.id u.tenantId ∧ PairFor cfg u.id u.tenantId r := by
  obtain ⟨φ, hend, hf⟩ := hb.obeys pid _ hp
  obtain ⟨id, tid, hn, hpair⟩ := hend r rfl
  obtain ⟨u, hu, rfl, rfl⟩ := hf.named id tid hn
  exact ⟨φ, u, hu, hn, hpair⟩

theorem mem_issuedBy {pid : Nat} {token : String} : token ∈ issuedBy s pid ↔ ∃ req r,
    s.procs pid = some ⟨req, .done (.ok (.tokens r))⟩ ∧ (token = r.accessToken ∨ token = r.refreshToken) := by
  constructor
  · intro htoken
    unfold issuedBy at htoken
    split at htoken
    · rename_i r hr
      obtain ⟨req, hp⟩ := State.result_eq_some.mp hr
      exact ⟨req, r, hp, by simpa using htoken⟩
    · cases htoken
  · intro h
    obtain ⟨req, r, hp, htoken⟩ := h
    rw [issuedBy, State.result_eq_some.mpr ⟨req, hp⟩]
    simpa using htoken

/-- The user of a token that was issued. -/
theorem Bound.user (hb : Bound cfg s) {token : String} (hi : Issued s token) :
    ∃ u ∈ s.world.users.rows, CarriedBy cfg u.id u.tenantId token := by
  obtain ⟨pid, hi⟩ := hi
  obtain ⟨req, r, hp, htoken⟩ := mem_issuedBy.mp hi
  obtain ⟨φ, u, hu, -, hpair⟩ := hb.pair hp
  rcases htoken with rfl | rfl
  · exact ⟨u, hu, hpair.access⟩
  · exact ⟨u, hu, hpair.refresh⟩

/-- What `str` writes of an id, `uuid.UUID` reads back. -/
theorem readDecimal_toString (n : Nat) : readDecimal (toString n).toList = some n := by
  have hdigits : (toString n).toList = Nat.toDigits 10 n := String.toList_ofList
  have hall : (Nat.toDigits 10 n).all Char.isDigit = true := by
    rw [List.all_eq_true]
    intro c hc
    exact Nat.isDigit_of_mem_toDigits (by omega) (by omega) hc
  rw [hdigits, readDecimal, if_pos ⟨Nat.toDigits_ne_nil, hall⟩, ← Nat.ofDigitChars_eq_foldl,
    Nat.ofDigitChars_toDigits (by omega) (by omega)]

/-- A token that names a user and a tenant, and that was issued, is that of a user. -/
private theorem Bound.hasUser_of_presents (hdecode : ∀ now p q, cfg.decode now (cfg.encode p) = .ok q → q = p)
    (hb : Bound cfg s) {token : String} {id tid : Uuid} (hp : Presents cfg token id tid)
    (hi : ∀ now p, cfg.decode now token = .ok p → Issued s token) : s.world.HasUser id tid := by
  obtain ⟨now, p, hp, hid, htid⟩ := hp
  obtain ⟨u, hu, q, rfl, hsub, htenant⟩ := hb.user (hi now p hp)
  obtain rfl := hdecode now q p hp
  rw [hsub, readDecimal_toString] at hid
  rw [htenant, readDecimal_toString] at htid
  exact ⟨u, hu, Option.some.inj hid, Option.some.inj htid⟩

private theorem made_step (hb : Bound cfg s) (h : (authService cfg).step s l = some s') :
    ∀ r ∈ s'.world.refreshTokens.rows, RowMade cfg r.toNewRefreshToken := by
  rcases step_cases h with ⟨pid, r, rfl, -, rfl⟩ | ⟨pid, out, r, o, k, rfl, hproc, rfl⟩ | ⟨e, w, rfl, hw, rfl⟩
  · exact hb.made
  · rw [resume_world]
    rcases Outcome.world_eq ((authService cfg).handle pid r) o s.world out with hw | hw
    · rw [hw]
      exact hb.made
    · rw [hw]
      intro row hrow
      obtain ⟨φ, -, hf⟩ := hb.obeys pid _ hproc
      obtain ⟨r₀, heq, hr₀ | hr₀⟩ := authReply_rows hrow
      · exact heq ▸ hb.made r₀ hr₀
      · exact heq ▸ hf.made r₀ hr₀
  · show ∀ r ∈ w.refreshTokens.rows, RowMade cfg r.toNewRefreshToken
    rw [(authEnv_effect hw).tokens]
    exact hb.made

private theorem apart_step (hb : Bound cfg s) (h : (authService cfg).step s l = some s') :
    Relational.Apart s'.world.userIdsAt s'.world.nextUuid := by
  rcases step_cases h with ⟨pid, r, rfl, -, rfl⟩ | ⟨pid, out, r, o, k, rfl, hproc, rfl⟩ | ⟨e, w, rfl, hw, rfl⟩
  · have hclear := hb.apart.clear (some pid)
    rw [← openSession_ids] at hclear
    exact hclear
  · rw [resume_world]
    rcases Outcome.world_eq ((authService cfg).handle pid r) o s.world out with hw | hw
    · rw [hw]
      exact hb.apart
    · rw [hw]
      exact (authReply_ids pid o s.world).apart hb.apart
  · show Relational.Apart w.userIdsAt w.nextUuid
    rw [(authEnv_effect hw).ids, (authEnv_effect hw).uuid]
    exact hb.apart

/-- What a request knows when it begins. -/
private theorem issueFits_start (hdecode : ∀ now p q, cfg.decode now (cfg.encode p) = .ok q → q = p)
    (hb : Bound cfg s) {pid : Nat} {req : AuthRequest} (hc : Unforged cfg s (.start pid req)) :
    IssueFits cfg req pid .start (s.world.openSession pid) := by
  have hfresh : (s.world.openSession pid).sessions pid = AuthSession.fresh := Function.update_self _ _ _
  refine ⟨?_, ?_, ?_⟩
  · intro r hr
    rw [hfresh] at hr
    cases hr
  · intro id tid hn
    cases req with
    | refresh q => exact hb.hasUser_of_presents hdecode hn hc
    | login q => exact hn.elim
    | register q => exact hn.elim
    | logout q => exact hn.elim
  · intro _
    rw [hfresh]
    rfl

theorem bound_step (hdecode : ∀ now p q, cfg.decode now (cfg.encode p) = .ok q → q = p) (hb : Bound cfg s)
    (hc : Unforged cfg s l) (h : (authService cfg).step s l = some s') : Bound cfg s' where
  obeys := by
    refine obeys_step_of ?_ ?_ ?_ hb.obeys h
    · rintro pid r rfl
      exact ⟨.start, program_issues cfg r, issueFits_start hdecode hb hc⟩
    · intro pid r o k out φ rep _ _ ha hf hrep
      exact hf.call ha hrep
    · intro q p φ hq _ _ hf
      exact hf.others ((auth_step_grows h).2 q hq) fun id tid hu => hasUser_step h hu
  made := made_step hb h
  apart := apart_step hb h

theorem bound_idle {w : AuthWorld} (hw : w.Initial) : Bound cfg (idle w) where
  obeys := idle_obeys _ _ _ w
  made r hr := by
    have hnil : w.refreshTokens.rows = [] := hw.tokens
    rw [show (idle w : AuthState).world = w from rfl, hnil] at hr
    cases hr
  apart := by
    have hpending : ∀ pid, w.userIdsAt (some pid) = [] := by
      intro pid
      show (w.sessions pid).newUsers.map User.id = []
      rw [hw.sessions pid]
      rfl
    constructor
    · intro place
      cases place with
      | none => exact hw.ids
      | some pid => exact hpending pid ▸ List.nodup_nil
    · intro place place' i hi hi'
      cases place with
      | none =>
        cases place' with
        | none => rfl
        | some q => exact absurd hi' (hpending q ▸ List.not_mem_nil)
      | some pid => exact absurd hi (hpending pid ▸ List.not_mem_nil)
    · intro place i hi
      cases place with
      | none =>
        obtain ⟨u, hu, rfl⟩ := List.mem_map.mp hi
        exact hw.given u hu
      | some pid => exact absurd hi (hpending pid ▸ List.not_mem_nil)

end Step

/-! ### Whole runs -/

/-- What the invariant says of the tokens. -/
private theorem Bound.tokensBound (hdecode : ∀ now p q, cfg.decode now (cfg.encode p) = .ok q → q = p)
    (hsha : Function.Injective cfg.sha256) {s : AuthState} (hb : Bound cfg s) (hphase : InPhase cfg s) :
    TokensBound cfg s := by
  have hcarries : ∀ u token, CarriedBy cfg u.id u.tenantId token → Carries cfg u token := by
    intro u token hmade
    refine ⟨hmade, fun now p hp => ?_⟩
    obtain ⟨q, rfl, hsub, htid⟩ := hmade
    obtain rfl := hdecode now q p hp
    exact ⟨hsub, htid⟩
  have hrows : ∀ row ∈ s.world.refreshTokens.rows, ∀ token, row.tokenHash = cfg.sha256 token →
      ∀ now p, cfg.decode now token = .ok p → p.sub = toString row.userId := by
    intro row hrow token hhash now p hp
    obtain ⟨id, tid, huser, token', ⟨q, htoken', hsub, -⟩, hhash'⟩ := hb.made row hrow
    obtain rfl : token = token' := hsha (hhash.symm.trans hhash')
    rw [htoken'] at hp
    obtain rfl := hdecode now q p hp
    rw [hsub, ← huser]
  refine ⟨hb.apart.nodup none, ?_, ?_, hrows, ?_⟩
  · intro token hi
    obtain ⟨u, hu, hmade⟩ := hb.user hi
    exact ⟨u, hu, hcarries u token hmade⟩
  · intro row hrow
    obtain ⟨id, tid, huser, token, htoken, hhash⟩ := hb.made row hrow
    exact ⟨token, tid, huser ▸ htoken, hhash⟩
  · intro pid req r hp
    obtain ⟨φ, u, hu, ⟨now, p, hdec, hid, -⟩, hpair⟩ := hb.pair hp
    have haccepted : Accepted req.refreshToken pid s := by
      rw [Accepted, hp]
      rfl
    obtain ⟨-, -, row, hrow, hkey, -⟩ := haccepted.knows hphase
    refine ⟨row, hrow, hkey, u, hu, ?_, hcarries u _ hpair.access, hcarries u _ hpair.refresh⟩
    -- the row has the user that the presented token names
    have hsub := hrows row hrow req.refreshToken hkey now p hdec
    rw [hsub, readDecimal_toString] at hid
    exact (Option.some.inj hid).symm

/-- As long as no token is forged, tokens, their rows and the users belong together in every state of
every run. -/
theorem tokens_bound (cfg : AuthSettings) (hdecode : ∀ now p q, cfg.decode now (cfg.encode p) = .ok q → q = p)
    (hsha : Function.Injective cfg.sha256) (w : AuthWorld) (hw : w.Initial) (ls : List AuthLabel)
    (s : AuthState) (hm : (authService cfg).Meets (Unforged cfg) (idle w) ls)
    (hrun : (authService cfg).run (idle w) ls = some s) : TokensBound cfg s := by
  have hb : Bound cfg s := run_induct (fun _ _ _ hi hc hs => bound_step hdecode hi hc hs)
    (bound_idle hw) hm hrun
  exact hb.tokensBound hdecode hsha (inPhase_run hrun)

/-! ### Tokens in clear text -/

/-- A list that is cut at a separator into as many pieces as it was joined from is cut into these. -/
private theorem flatMap_splitOn_eq {c : Char} {parts pieces : List (List Char)}
    (h : parts.flatMap (List.splitOn c) = pieces) (hlen : pieces.length = parts.length) : pieces = parts := by
  have hle : ∀ qs : List (List Char), qs.length ≤ (qs.flatMap (List.splitOn c)).length := by
    intro qs
    induction qs with
    | nil => exact Nat.le_refl _
    | cons q qs ih =>
      have hpos := List.length_pos_iff.mpr (List.splitOn_ne_nil c q)
      rw [List.flatMap_cons, List.length_append, List.length_cons]
      omega
  induction parts generalizing pieces with
  | nil => exact h.symm
  | cons p parts ih =>
    rw [List.flatMap_cons] at h
    have hpos := List.length_pos_iff.mpr (List.splitOn_ne_nil c p)
    have htotal := congrArg List.length h
    rw [List.length_append] at htotal
    have hrest := hle parts
    have hone : (List.splitOn c p).length = 1 := by
      rw [List.length_cons] at hlen
      omega
    obtain ⟨q, hq⟩ := List.length_eq_one_iff.mp hone
    have hqp : q = p := by
      have hjoin : [c].intercalate (p.splitOn c) = p := List.intercalate_splitOn c
      rw [hq] at hjoin
      simpa using hjoin
    rw [hq, hqp] at h
    rw [← h, List.singleton_append]
    refine congrArg (p :: ·) (ih rfl ?_)
    rw [List.length_cons] at hlen
    rw [hone] at htotal
    omega

/-- `plainDecode` undoes `plainEncode`. -/
theorem plain_decode_encode (now : Nat) (p q : TokenPayload)
    (h : plainSettings.decode now (plainSettings.encode p) = .ok q) : q = p := by
  simp only [plainSettings] at h
  have hsplit : (plainEncode p).toList.splitOn '.' = [p.sub.toList, p.tid.toList,
      (if p.typ = .refresh then "refresh" else "access").toList, p.jti.toList, (toString p.exp).toList,
      (toString p.iat).toList].flatMap (List.splitOn '.') := by
    simp [plainEncode, List.splitOn_append_cons_self]
  unfold plainDecode at h
  split at h
  · rename_i sub tid typ jti exp iat hpieces
    rw [hsplit] at hpieces
    have hparts := flatMap_splitOn_eq hpieces rfl
    simp only [List.cons.injEq, and_true] at hparts
    obtain ⟨rfl, rfl, rfl, rfl, rfl, rfl⟩ := hparts
    simp only [readDecimal_toString] at h
    split at h
    · cases h
    · obtain rfl := Except.ok.inj h
      obtain ⟨sub, tid, typ, jti, exp, iat⟩ := p
      cases typ <;> simp
  · cases h
/-- A refresh presents one of the tokens that the first request was answered with. -/
def PresentsFirst (s : AuthState) : AuthLabel → Prop
  | .start _ (.refresh req) => req.refreshToken ∈ issuedBy s 0
  | _ => True

instance (s : AuthState) : (l : AuthLabel) → Decidable (PresentsFirst s l)
  | .start _ (.refresh req) => inferInstanceAs (Decidable (req.refreshToken ∈ issuedBy s 0))
  | .start _ (.register _) | .start _ (.login _) | .start _ (.logout _) | .call .. | .env _ =>
    isTrue trivial

private theorem unforged_of_first {s : AuthState} {l : AuthLabel} (h : PresentsFirst s l) :
    Unforged cfg s l := by
  cases l with
  | start pid req =>
    cases req with
    | refresh q => exact fun _ _ _ => ⟨0, h⟩
    | _ => trivial
  | _ => trivial

theorem oneUser_initial : AuthWorld.oneUser.Initial where
  tokens := rfl
  ids := List.nodup_singleton 2
  given u hu := by
    obtain rfl := List.mem_singleton.mp hu
    decide
  sessions _ := rfl

/-- A login and a refresh with its token. -/
theorem tokens_bound_sequential : ∃ s,
    (authService plainSettings).run (idle AuthWorld.oneUser) sequentialRun = some s ∧
    issuedBy s 1 ≠ [] ∧ TokensBound plainSettings s := by
  have hruns : ((authService plainSettings).run (idle AuthWorld.oneUser) sequentialRun).map
      (fun s => decide (issuedBy s 1 ≠ [])) = some true := by decide +kernel
  obtain ⟨s, hrun, hissued⟩ := Option.map_eq_some_iff.mp hruns
  have hmeets : (authService plainSettings).Meets PresentsFirst (idle AuthWorld.oneUser) sequentialRun :=
    by decide +kernel
  have hsha : Function.Injective plainSettings.sha256 := by
    intro t t' h
    have htext : "sha256:".toList ++ t.toList = "sha256:".toList ++ t'.toList := by
      rw [← String.toList_append, ← String.toList_append]
      exact congrArg String.toList h
    exact String.toList_injective (List.append_cancel_left htext)
  have hunforged : (authService plainSettings).Meets (Unforged plainSettings)
    (idle AuthWorld.oneUser) sequentialRun :=
    Meets.imp (fun _ _ h => unforged_of_first h) hmeets
  have hbound := tokens_bound plainSettings plain_decode_encode hsha AuthWorld.oneUser oneUser_initial
    sequentialRun s hunforged hrun
  exact ⟨s, hrun, of_decide_eq_true hissued, hbound⟩

end LegalRag
