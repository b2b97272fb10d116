import LegalRag.Auth.Binding
import LegalRag.Calls.Projection
import LegalRag.Calls.Watch
import LegalRag.Text.Strings

/-!
# The guard of the routes

`current_token` and `current_user` of `src/api/deps.py`.  Every route but the auth ones depends on
`current_user`, which takes the user and the tenant from the access token in the `Authorization` header
and reads `is_active` of the user's row.

* `let_in_active`: whoever is let in has presented an access token that the service issued, which had not
expired when it was checked, and is let in as a user who was active when the row was read, in the user's
own tenant;
* `access_lets_in`: an access token that has not expired lets its user in, if the user is active.
-/

namespace LegalRag

open Calls Prog Service Relational

variable (cfg : AuthSettings)

/-- `text.split(" ", 1)[1]`. -/
def afterSpace (text : List Char) : Except ApiErr (List Char) :=
  match text.dropWhile (· ≠ ' ') with
  | [] => .error (.other "list index out of range")
  | _ :: rest => .ok rest

/-- `_bearer`. -/
def bearer (authorization : Option String) : Except ApiErr String :=
  let header := authorization.getD ""
  if header = "" ∨ ¬ "bearer ".toList.isPrefixOf (cfg.lower header).toList then
    .error (.http 401 "missing bearer token")
  else (afterSpace header.toList).map fun token => String.ofList (PyStr.strip id token)

/-- `current_token`. -/
def currentToken (authorization : Option String) : Auth TokenPayload := do
  let token ← .done (bearer cfg authorization)
  let payload ← tryCatch (decodeToken cfg token) fun _ => throw (.http 401 "invalid token")
  if payload.typ ≠ .access then throw (.http 401 "wrong token type")
  else return payload

/-- `by_id`. -/
def byId (userId : Uuid) : Auth (Option User) := auth (.getUser userId)

/-- The rest of `current_user`, once the token has been read. -/
def letIn (userId tenantId : Uuid) : Auth (Uuid × Uuid) := do
  match ← byId userId with
  | none => throw (.http 401 "user inactive")
  | some u =>
    if ¬ u.isActive then throw (.http 401 "user inactive")
    else return (userId, tenantId)

/-- `current_user`. -/
def currentUser (authorization : Option String) : Auth (Uuid × Uuid) := do
  let token ← currentToken cfg authorization
  let userId ← parseUuid token.sub
  let tenantId ← parseUuid token.tid
  letIn userId tenantId

/-- A request to an auth route, or to a route behind `current_user`, with its `Authorization` header. -/
inductive GuardRequest where
  | auth (req : AuthRequest)
  | current (authorization : Option String)
  deriving DecidableEq, Repr

inductive GuardReply where
  | auth (r : AuthReply)
  | user (userId tenantId : Uuid)
  deriving DecidableEq, Repr

/-- The program of a request. -/
def GuardRequest.program : GuardRequest → Auth GuardReply
  | .auth req => GuardReply.auth <$> req.program cfg
  | .current authorization => (fun x => GuardReply.user x.1 x.2) <$> currentUser cfg authorization

/-- The auth routes and the guard of the others, any number of requests at a time. -/
def guardService : Service AuthCalls ApiErr AuthWorld GuardRequest AuthEnv GuardReply where
  program := GuardRequest.program cfg
  enter := AuthWorld.openSession
  handle pid _ := authReply pid
  env := AuthEnv.step

abbrev GuardState := Service.State AuthCalls ApiErr AuthWorld GuardRequest GuardReply

abbrev GuardLabel := Service.Label ApiErr GuardRequest AuthEnv

/-- The token is one of a pair that a request has been answered with. -/
def GuardState.Issued (s : GuardState) (token : String) : Prop :=
  ∃ pid req r, s.procs pid = some ⟨.auth req, .done (.ok (.auth (.tokens r)))⟩ ∧
    (token = r.accessToken ∨ token = r.refreshToken)

/-- The token is the access token of such a pair. -/
def GuardState.IssuedAccess (s : GuardState) (token : String) : Prop :=
  ∃ pid req r, s.procs pid = some ⟨.auth req, .done (.ok (.auth (.tokens r)))⟩ ∧ token = r.accessToken

/-- A token that is presented to `refresh` or to the guard, and that decodes, has been issued. -/
def GuardUnforged (s : GuardState) : GuardLabel → Prop
  | .start _ (.auth (.refresh req)) =>
    ∀ now p, cfg.decode now req.refreshToken = .ok p → s.Issued req.refreshToken
  | .start _ (.current authorization) =>
    ∀ token, bearer cfg authorization = .ok token → ∀ now p, cfg.decode now token = .ok p → s.Issued token
  | _ => True

/-- The request of a process. -/
def GuardState.Serves (s : GuardState) (pid : Nat) (req : GuardRequest) : Prop :=
  ∃ p, s.procs pid = some ⟨req, p⟩

variable {cfg}

/-! ### The program of the guard -/

/-- What `current_user` makes of a token at a time. -/
def tokenVerdict (cfg : AuthSettings) (now : Nat) (token : String) : Except ApiErr (Uuid × Uuid) :=
  match cfg.decode now token with
  | .error _ => .error (.http 401 "invalid token")
  | .ok p =>
    if p.typ ≠ .access then .error (.http 401 "wrong token type")
    else
      match readDecimal p.sub.toList with
      | none => .error (.other "badly formed hexadecimal UUID string")
      | some userId =>
        match readDecimal p.tid.toList with
        | none => .error (.other "badly formed hexadecimal UUID string")
        | some tenantId => .ok (userId, tenantId)

/-- The read of the row, and what is made of it. -/
def readsUser (userId tenantId : Uuid) : Auth GuardReply :=
  (fun x => GuardReply.user x.1 x.2) <$> letIn userId tenantId

/-- The rest of the guard, once it has asked for the time. -/
def checksToken (cfg : AuthSettings) (token : String) : Except ApiErr Nat → Auth GuardReply
  | .error _ => .done (.error (.http 401 "invalid token"))
  | .ok now => cont (fun x => readsUser x.1 x.2) (tokenVerdict cfg now token)

private theorem current_program (authorization : Option String) :
    (GuardRequest.current authorization).program cfg = cont
      (fun token => .call AuthOp.now (checksToken cfg token)) (bearer cfg authorization) := by
  simp only [GuardRequest.program, currentUser, currentToken, decodeToken, map_eq_pure_bind]
  cases hb : bearer cfg authorization with
  | error e => rfl
  | ok token =>
    refine congrArg (Prog.call _) (funext fun rep => ?_)
    cases rep with
    | error e => rfl
    | ok now =>
      simp only [checksToken, tokenVerdict]
      show ((((Prog.done (cfg.decode now token)).handle _ >>= _) >>= _) >>= _) = _
      cases hd : cfg.decode now token with
      | error e => rfl
      | ok p =>
        by_cases htyp : p.typ ≠ .access
        · simp only [handle_ok, done_bind, cont_ok, if_pos htyp]
          rfl
        · simp only [handle_ok, done_bind, cont_ok, if_neg htyp, parseUuid, pure_def]
          cases hsub : readDecimal p.sub.toList with
          | none => rfl
          | some userId =>
            simp only [done_bind, cont_ok]
            cases htid : readDecimal p.tid.toList with
            | none => rfl
            | some tenantId => rfl

/-- What is made of the row. -/
def checksRow (userId tenantId : Uuid) : Except ApiErr (Option User) → Auth GuardReply
  | .error e => .done (.error e)
  | .ok none => .done (.error (.http 401 "user inactive"))
  | .ok (some u) =>
    if ¬ u.isActive then .done (.error (.http 401 "user inactive")) else .done (.ok (.user userId tenantId))

private theorem readsUser_eq (userId tenantId : Uuid) :
    readsUser userId tenantId = .call (AuthOp.getUser userId) (checksRow userId tenantId) := by
  simp only [readsUser, map_eq_pure_bind, letIn, byId]
  refine congrArg (Prog.call _) (funext fun rep => ?_)
  cases rep with
  | error e => rfl
  | ok found =>
    cases found with
    | none => rfl
    | some u =>
      show ((if ¬ u.isActive = true then throw (.http 401 "user inactive")
        else pure (userId, tenantId) : Auth (Uuid × Uuid)) >>= fun x => pure (GuardReply.user x.1 x.2)) = _
      simp only [checksRow]
      split <;> rfl

private theorem readsUser_inj {userId tenantId userId' tenantId' : Uuid}
    (h : readsUser userId tenantId = readsUser userId' tenantId') :
    userId = userId' ∧ tenantId = tenantId' := by
  rw [readsUser_eq, readsUser_eq, Prog.call.injEq] at h
  obtain ⟨ho, hk⟩ := h
  obtain rfl := AuthOp.getUser.inj ho
  have hrow := congrFun (eq_of_heq hk) (.ok (some ⟨⟨tenantId, "", "", none⟩, userId, true, none⟩))
  simp only [checksRow, not_true_eq_false, if_false] at hrow
  cases hrow
  exact ⟨rfl, rfl⟩

/-- What can be left of a guarded request. -/
inductive GuardStage (cfg : AuthSettings) (authorization : Option String) : Auth GuardReply → Prop
  | new {p : Auth GuardReply} (hp : p = (GuardRequest.current authorization).program cfg) :
    GuardStage cfg authorization p
  | row {p : Auth GuardReply} (userId tenantId : Uuid) (hp : p = readsUser userId tenantId) :
    GuardStage cfg authorization p
  | over (r : Except ApiErr GuardReply) : GuardStage cfg authorization (.done r)

/-- The next call of the guard, and what follows it. -/
private theorem GuardStage.call {authorization : Option String} {o : AuthOp}
    {k : Except ApiErr o.Resp → Auth GuardReply} (h : GuardStage cfg authorization (.call o k)) :
    (∃ token, bearer cfg authorization = .ok token ∧
      (.call o k : Auth GuardReply) = .call AuthOp.now (checksToken cfg token)) ∨
    ∃ userId tenantId, (.call o k : Auth GuardReply) = .call (AuthOp.getUser userId)
      (checksRow userId tenantId) := by
  cases h with
  | new hp =>
    rw [current_program] at hp
    cases hb : bearer cfg authorization with
    | error e =>
      rw [hb] at hp
      cases hp
    | ok token =>
      rw [hb] at hp
      exact Or.inl ⟨token, rfl, hp⟩
  | row userId tenantId hp => exact Or.inr ⟨userId, tenantId, hp.trans (readsUser_eq userId tenantId)⟩

private theorem checksToken_stage (authorization : Option String) (token : String) (rep : Except ApiErr Nat) :
    GuardStage cfg authorization (checksToken cfg token rep) := by
  cases rep with
  | error e => exact .over _
  | ok now =>
    simp only [checksToken]
    cases tokenVerdict cfg now token with
    | error e => exact .over _
    | ok x => exact .row x.1 x.2 rfl

private theorem checksRow_over (userId tenantId : Uuid) (rep : Except ApiErr (Option User)) :
    ∃ r, checksRow userId tenantId rep = .done r := by
  cases rep with
  | error e => exact ⟨_, rfl⟩
  | ok found =>
    cases found with
    | none => exact ⟨_, rfl⟩
    | some u =>
      simp only [checksRow]
      split <;> exact ⟨_, rfl⟩

private theorem GuardStage.next {authorization : Option String} {o : AuthOp}
    {k : Except ApiErr o.Resp → Auth GuardReply} (h : GuardStage cfg authorization (.call o k))
    (rep : Except ApiErr o.Resp) : GuardStage cfg authorization (k rep) := by
  rcases h.call with ⟨token, -, hp⟩ | ⟨userId, tenantId, hp⟩
  · cases hp
    exact checksToken_stage authorization token rep
  · cases hp
    obtain ⟨r, hr⟩ := checksRow_over userId tenantId rep
    rw [hr]
    exact .over r

/-- The guard only reads. -/
private theorem GuardStage.world {authorization : Option String} {o : AuthOp}
    {k : Except ApiErr o.Resp → Auth GuardReply} (h : GuardStage cfg authorization (.call o k)) (pid : Nat)
    (w : AuthWorld) : (authReply pid o w).2 = w := by
  rcases h.call with ⟨token, -, hp⟩ | ⟨userId, tenantId, hp⟩ <;> cases hp <;> rfl

/-! ### A step -/

section Step

variable {s s' : GuardState} {l : GuardLabel} {pid : Nat} {authorization : Option String}

/-- Every guarded request is in one of its stages. -/
def GuardState.Staged (cfg : AuthSettings) (s : GuardState) : Prop :=
  ∀ pid authorization p, s.procs pid = some ⟨.current authorization, p⟩ → GuardStage cfg authorization p

private theorem staged_step (hs : s.Staged cfg) (h : (guardService cfg).step s l = some s') :
    s'.Staged cfg := by
  intro pid authorization p hp
  by_cases hne : s.procs pid = some ⟨.current authorization, p⟩
  · exact hs pid authorization p hne
  · rcases proc_turns h hp hne with ⟨-, hnew⟩ | ⟨out, o, k, rep, -, hproc, -, hk⟩
    · exact .new hnew
    · obtain rfl : p = k rep := hk
      exact (hs pid authorization _ hproc).next rep

/-- A request is let in by the read of its user's row. -/
private theorem row_turns {userId tenantId : Uuid} (hs : s.Staged cfg)
    (h : (guardService cfg).step s l = some s')
    (hp : s'.procs pid = some ⟨.current authorization, .done (.ok (.user userId tenantId))⟩)
    (hne : s.procs pid ≠ some ⟨.current authorization, .done (.ok (.user userId tenantId))⟩) :
    s.procs pid = some ⟨.current authorization, readsUser userId tenantId⟩ ∧
      ∃ u, (authReply pid (.getUser userId) s.world).1 = .ok (some u) ∧ u.isActive = true := by
  rcases proc_turns h hp hne with ⟨-, hnew⟩ | ⟨out, o, k, rep, -, hproc, hrep, hk⟩
  · have hprog : (Prog.done (.ok (.user userId tenantId)) : Auth GuardReply) =
      (GuardRequest.current authorization).program cfg := hnew
    rw [current_program] at hprog
    cases hb : bearer cfg authorization with
    | error e =>
      rw [hb] at hprog
      cases hprog
    | ok token =>
      rw [hb] at hprog
      cases hprog
  · rcases (hs pid authorization _ hproc).call with ⟨token, -, hcall⟩ | ⟨userId', tenantId', hcall⟩
    · cases hcall
      have hk' : (Prog.done (.ok (.user userId tenantId)) : Auth GuardReply) =
        checksToken cfg token rep := hk
      cases rep with
      | error e => cases hk'
      | ok now =>
        simp only [checksToken] at hk'
        cases hv : tokenVerdict cfg now token with
        | error e =>
          rw [hv] at hk'
          cases hk'
        | ok x =>
          rw [hv, cont_ok, readsUser_eq] at hk'
          cases hk'
    · cases hcall
      have hk' : (Prog.done (.ok (.user userId tenantId)) : Auth GuardReply) =
        checksRow userId' tenantId' rep := hk
      cases rep with
      | error e => cases hk'
      | ok found =>
        cases found with
        | none => cases hk'
        | some u =>
          simp only [checksRow] at hk'
          by_cases hactive : u.isActive = true
          · rw [if_neg (by simpa using hactive)] at hk'
            cases hk'
            refine ⟨?_, u, Outcome.handler_ok hrep, hactive⟩
            rw [readsUser_eq]
            exact hproc
          · rw [if_pos hactive] at hk'
            cases hk'

/-- A request comes to the read of the row by a token that has passed its checks. -/
private theorem token_turns {userId tenantId : Uuid} (hs : s.Staged cfg)
    (h : (guardService cfg).step s l = some s')
    (hp : s'.procs pid = some ⟨.current authorization, readsUser userId tenantId⟩)
    (hne : s.procs pid ≠ some ⟨.current authorization, readsUser userId tenantId⟩) :
    s.Serves pid (.current authorization) ∧ ∃ token, bearer cfg authorization = .ok token ∧
      tokenVerdict cfg s.world.clock token = .ok (userId, tenantId) := by
  rcases proc_turns h hp hne with ⟨-, hnew⟩ | ⟨out, o, k, rep, -, hproc, hrep, hk⟩
  · have hprog : readsUser userId tenantId = (GuardRequest.current authorization).program cfg := hnew
    rw [current_program, readsUser_eq] at hprog
    cases hb : bearer cfg authorization with
    | error e =>
      rw [hb] at hprog
      cases hprog
    | ok token =>
      rw [hb] at hprog
      cases hprog
  · rcases (hs pid authorization _ hproc).call with ⟨token, hb, hcall⟩ | ⟨userId', tenantId', hcall⟩
    · cases hcall
      have hk' : readsUser userId tenantId = checksToken cfg token rep := hk
      cases rep with
      | error e =>
        rw [readsUser_eq] at hk'
        cases hk'
      | ok now =>
        have hnow : now = s.world.clock := (Except.ok.inj (Outcome.handler_ok hrep)).symm
        simp only [checksToken] at hk'
        cases hv : tokenVerdict cfg now token with
        | error e =>
          rw [hv, readsUser_eq] at hk'
          cases hk'
        | ok x =>
          rw [hv] at hk'
          obtain ⟨rfl, rfl⟩ := readsUser_inj hk'
          exact ⟨⟨_, hproc⟩, token, hb, hnow ▸ hv⟩
    · cases hcall
      have hk' : readsUser userId tenantId = checksRow userId' tenantId' rep := hk
      obtain ⟨r, hr⟩ := checksRow_over userId' tenantId' rep
      rw [hr, readsUser_eq] at hk'
      cases hk'

end Step

/-! ### The auth routes behind the guard -/

/-- What the auth routes see of a process: their own, and a guarded request as a logout that has opened
its session and makes no call. -/
inductive SeesGuard : Option (Proc AuthCalls ApiErr GuardRequest GuardReply) → Option AuthProc → Prop
  | none : SeesGuard none none
  | auth (req : AuthRequest) {p : Auth AuthReply} {q : Auth GuardReply} (hq : q = GuardReply.auth <$> p) :
    SeesGuard (some ⟨.auth req, q⟩) (some ⟨req, p⟩)
  | current (authorization : Option String) (p : Auth GuardReply) (o : AuthOp)
    (k : Except ApiErr o.Resp → Auth AuthReply) :
    SeesGuard (some ⟨.current authorization, p⟩) (some ⟨.logout ⟨""⟩, .call o k⟩)

/-- The step of the auth routes that a step is to them. -/
def guardView (s : GuardState) : GuardLabel → Option AuthLabel
  | .start pid (.auth req) => some (.start pid req)
  | .start pid (.current _) => some (.start pid (.logout ⟨""⟩))
  | .call pid out =>
    match s.procs pid, out with
    | some ⟨.auth _, _⟩, _ => some (.call pid out)
    | _, .crashed _ => some (.call pid (.crashed false))
    | _, _ => none
  | .env e => some (.env e)

/-- The state of the auth routes behind the guard. -/
structure BehindGuard (s : GuardState) (a : AuthState) : Prop where
  world : a.world = s.world
  procs : ∀ pid, SeesGuard (s.procs pid) (a.procs pid)

section Behind

variable {s s' : GuardState} {a : AuthState} {l : GuardLabel}

private theorem BehindGuard.set (h : BehindGuard s a) (w : AuthWorld) {pid : Nat}
    {p : Option (Proc AuthCalls ApiErr GuardRequest GuardReply)} {q : Option AuthProc} (hp : SeesGuard p q) :
    BehindGuard (s.set w pid p) (a.set w pid q) := by
  refine ⟨rfl, fun r => ?_⟩
  rw [State.set_procs, State.set_procs]
  split
  · exact hp
  · exact h.procs r

/-- A guarded request goes on. -/
private theorem BehindGuard.current (h : BehindGuard s a) {pid : Nat} {req : AuthRequest} {o : AuthOp}
    {k : Except ApiErr o.Resp → Auth AuthReply} (hq : a.procs pid = some ⟨req, .call o k⟩)
    (hreq : req = .logout ⟨""⟩) (authorization : Option String) (p : Auth GuardReply) :
    BehindGuard (s.set s.world pid (some ⟨.current authorization, p⟩)) a := by
  refine ⟨h.world, fun r => ?_⟩
  rw [State.set_procs]
  split
  · rename_i hr
    rw [hr, hq, hreq]
    exact .current authorization p o k
  · exact h.procs r

/-- To the auth routes a pair of tokens has been answered with just when it has to all. -/
private theorem BehindGuard.answered (h : BehindGuard s a) {pid : Nat} {req : AuthRequest}
    {r : TokenResponse} :
    s.procs pid = some ⟨.auth req, .done (.ok (.auth (.tokens r)))⟩ ↔
      a.procs pid = some ⟨req, .done (.ok (.tokens r))⟩ := by
  have hsees := h.procs pid
  constructor
  · intro hp
    rw [hp] at hsees
    cases hq : a.procs pid with
    | none =>
      rw [hq] at hsees
      cases hsees
    | some q =>
      rw [hq] at hsees
      cases hsees with
      | @auth req p q hdone =>
        cases p with
        | call o k => cases hdone
        | done x =>
          cases x with
          | error e => cases hdone
          | ok b =>
            cases hdone
            rfl
  · intro hq
    rw [hq] at hsees
    cases hp : s.procs pid with
    | none =>
      rw [hp] at hsees
      cases hsees
    | some p =>
      rw [hp] at hsees
      cases hsees with
      | auth req hdone =>
        rw [hdone]
        rfl

private theorem BehindGuard.issued (h : BehindGuard s a) {token : String} :
    s.Issued token ↔ Issued a token := by
  constructor
  · rintro ⟨pid, req, r, hp, htoken⟩
    exact ⟨pid, mem_issuedBy.mpr ⟨req, r, h.answered.mp hp, htoken⟩⟩
  · rintro ⟨pid, hi⟩
    obtain ⟨req, r, hp, htoken⟩ := mem_issuedBy.mp hi
    exact ⟨pid, req, r, h.answered.mpr hp, htoken⟩

/-- One step of all is the step of the auth routes that they see of it, if any. -/
private theorem behind_step (hs : s.Staged cfg) (hb : BehindGuard s a) (hc : GuardUnforged cfg s l)
    (h : (guardService cfg).step s l = some s') :
    Matches (authService cfg) (Unforged cfg) BehindGuard s' a (guardView s l) := by
  rcases step_cases h with ⟨pid, r, rfl, hp, rfl⟩ | ⟨pid, out, r, o, k, rfl, hp, rfl⟩ | ⟨e, w, rfl, hw, rfl⟩
  · have hnone : a.procs pid = none := by
      have hsees := hb.procs pid
      rw [hp] at hsees
      generalize a.procs pid = q at hsees
      cases hsees
      rfl
    cases r with
    | auth req =>
      refine ⟨?_, a.set (a.world.openSession pid) pid (some ⟨req, req.program cfg⟩), ?_, ?_⟩
      · cases req with
        | refresh q => exact fun now p hp => hb.issued.mp (hc now p hp)
        | _ => trivial
      · simp only [Service.step, hnone]
        rfl
      · rw [hb.world]
        exact hb.set _ (.auth req rfl)
    | current authorization =>
      refine ⟨trivial, a.set (a.world.openSession pid) pid
        (some ⟨.logout ⟨""⟩, (AuthRequest.logout ⟨""⟩).program cfg⟩), ?_, ?_⟩
      · simp only [Service.step, hnone]
        rfl
      · rw [hb.world]
        exact hb.set _ (.current authorization _ _ _)
  · have hsees := hb.procs pid
    rw [hp] at hsees
    cases r with
    | auth req =>
      have hview : guardView s (.call pid out) = some (.call pid out) := by simp only [guardView, hp]
      rw [hview]
      generalize hq : a.procs pid = q at hsees
      cases hsees with
      | @auth req p q hprog =>
        cases p with
        | done x => cases x <;> cases hprog
        | call o' k' =>
          rw [map_eq_pure_bind, bind_call, Prog.call.injEq] at hprog
          obtain ⟨rfl, hk⟩ := hprog
          obtain rfl := eq_of_heq hk
          refine ⟨trivial, resume a (out.world (authReply pid) o a.world) pid req k'
            (out.reply (authReply pid) o a.world), ?_, ?_⟩
          · simp only [Service.step, hq]
            rfl
          · rw [hb.world]
            show BehindGuard (resume s (out.world (authReply pid) o s.world) pid _ _
              (out.reply (authReply pid) o s.world)) _
            cases out.reply (authReply pid) o s.world with
            | none => exact hb.set _ .none
            | some rep => exact hb.set _ (.auth req (map_eq_pure_bind ..).symm)
    | current authorization =>
      have hworld : out.world (authReply pid) o s.world = s.world := by
        rcases Outcome.world_eq (authReply pid) o s.world out with hw | hw
        · exact hw
        · exact hw.trans ((hs pid authorization _ hp).world pid s.world)
      generalize hq : a.procs pid = q at hsees
      cases hsees with
      | current _ _ o' k' =>
        cases out with
        | crashed applied =>
          have hview : guardView s (.call pid (.crashed applied)) = some (.call pid (.crashed false)) := by
            simp only [guardView, hp]
          rw [hview]
          refine ⟨trivial, a.set a.world pid none, ?_, ?_⟩
          · simp only [Service.step, hq]
            rfl
          · show BehindGuard (s.set (Outcome.world (authReply pid) o s.world (.crashed applied)) pid none) _
            rw [hworld, hb.world]
            exact hb.set _ .none
        | ok =>
          have hview : guardView s (.call pid .ok) = none := by simp only [guardView, hp]
          rw [hview]
          have hworld' : (authReply pid o s.world).2 = s.world := hworld
          show BehindGuard (s.set (authReply pid o s.world).2 pid _) a
          rw [hworld']
          exact hb.current hq rfl authorization _
        | raised e applied =>
          have hview : guardView s (.call pid (.raised e applied)) = none := by simp only [guardView, hp]
          rw [hview]
          show BehindGuard (s.set (Outcome.world (authReply pid) o s.world (.raised e applied)) pid _) a
          rw [hworld]
          exact hb.current hq rfl authorization _
  · refine ⟨?_, ⟨w, a.procs⟩, ?_, rfl, hb.procs⟩
    · trivial
    · show (AuthEnv.step e a.world).map _ = _
      rw [hb.world]
      show (AuthEnv.step e s.world).map _ = _
      have hw' : AuthEnv.step e s.world = some w := hw
      rw [hw']
      rfl

end Behind

/-! ### Tokens of two types -/

/-- Nothing is said about the calls. -/
abbrev Finishes {α : Type} (p : Auth α) (post : α → Prop) : Prop :=
  p.Follows (fun _ _ => True) (fun _ => True) post

/-- The two tokens of a pair have their types. -/
structure PairTyped (cfg : AuthSettings) (r : TokenResponse) : Prop where
  access : ∃ p, r.accessToken = cfg.encode p ∧ p.typ = .access
  refresh : ∃ p, r.refreshToken = cfg.encode p ∧ p.typ = .refresh

private theorem finishes_any {α : Type} (p : Auth α) : Finishes p fun _ => True := by
  induction p with
  | done r => cases r <;> trivial
  | call o k ih => exact ⟨trivial, fun a _ => ih _, fun e => ih _⟩

/-- The end of a program is all that counts. -/
private theorem finishes_last {α β : Type} {p : Auth α} {f : α → Auth β} {post : β → Prop}
    (hf : ∀ a, Finishes (f a) post) : Finishes (p >>= f) post :=
  follows_bind ((finishes_any p).mono fun a _ => hf a)

private theorem buildToken_typed (id tid : Uuid) (typ : TokenType) (ttl : Nat) :
    Finishes (buildToken cfg id tid typ ttl) fun x => ∃ p, x.1 = cfg.encode p ∧ p.typ = typ := by
  refine finishes_last fun now => ?_
  refine finishes_last fun jti => ?_
  exact ⟨_, rfl, rfl⟩

private theorem tokenPair_typed (id tid : Uuid) :
    Finishes (tokenPair cfg id tid) fun x => PairTyped cfg x.1 := by
  refine follows_bind ((buildToken_typed id tid .access _).mono fun access haccess => ?_)
  refine follows_bind ((buildToken_typed id tid .refresh _).mono fun refresh hrefresh => ?_)
  exact ⟨haccess, hrefresh⟩

private theorem login_typed (req : LoginRequest) : Finishes (login cfg req) (PairTyped cfg) := by
  refine finishes_last fun tenant => finishes_last fun found => ?_
  cases found with
  | none => trivial
  | some user =>
    refine finishes_last fun ok => ?_
    split
    · split
      · refine follows_bind ((tokenPair_typed user.id tenant.id).mono fun x hx => ?_)
        exact finishes_last fun _ => finishes_last fun _ => finishes_last fun _ => finishes_last fun _ => hx
      · trivial
    · trivial

private theorem refresh_typed (req : RefreshRequest) : Finishes (refresh cfg req) (PairTyped cfg) := by
  refine finishes_last fun payload => ?_
  split
  · trivial
  · refine finishes_last fun rt => finishes_last fun ok => ?_
    split
    · refine finishes_last fun _ => finishes_last fun userId => finishes_last fun tenantId => ?_
      refine follows_bind ((tokenPair_typed userId tenantId).mono fun x hx => ?_)
      exact finishes_last fun _ => finishes_last fun _ => finishes_last fun _ => hx
    · trivial

private theorem program_typed (req : AuthRequest) :
    Finishes (req.program cfg) fun x => ∀ r, x = .tokens r → PairTyped cfg r := by
  cases req with
  | register q =>
    rw [AuthRequest.program, map_eq_pure_bind]
    exact finishes_last fun u r hr => by cases hr
  | login q =>
    rw [AuthRequest.program, map_eq_pure_bind]
    refine follows_bind ((login_typed q).mono fun x hx r hr => ?_)
    obtain rfl := AuthReply.tokens.inj hr
    exact hx
  | refresh q =>
    rw [AuthRequest.program, map_eq_pure_bind]
    refine follows_bind ((refresh_typed q).mono fun x hx r hr => ?_)
    obtain rfl := AuthReply.tokens.inj hr
    exact hx
  | logout q =>
    rw [AuthRequest.program, map_eq_pure_bind]
    exact finishes_last fun u r hr => by cases hr

/-- Every pair that is answered is typed. -/
private theorem typed_run {w : AuthWorld} {ls : List AuthLabel} {a : AuthState}
    (h : (authService cfg).run (idle w) ls = some a) {pid : Nat} {req : AuthRequest} {r : TokenResponse}
    (hp : a.procs pid = some ⟨req, .done (.ok (.tokens r))⟩) : PairTyped cfg r := by
  have hall : ∀ pid p, a.procs pid = some p → Finishes p.prog fun x =>
      ∀ r, x = .tokens r → PairTyped cfg r := by
    refine run_keeps (S := authService cfg) (fun a => ∀ pid p, a.procs pid = some p →
      Finishes p.prog fun x => ∀ r, x = .tokens r → PairTyped cfg r) ?_ (fun pid p hp => by cases hp) h
    intro s l s' hs hstep pid p hp
    by_cases hne : s.procs pid = some p
    · exact hs pid p hne
    · rcases proc_turns hstep hp hne with ⟨-, hnew⟩ | ⟨out, o, k, rep, -, hproc, -, hk⟩
      · rw [hnew]
        exact program_typed p.req
      · rw [hk]
        obtain ⟨-, hok, herr⟩ := hs pid _ hproc
        cases rep with
        | ok x => exact hok x trivial
        | error e => exact herr e
  exact hall pid _ hp r rfl

/-! ### Whole runs -/

/-- What a guarded request presents has been issued, if it decodes. -/
def GuardState.Presented (cfg : AuthSettings) (s : GuardState) : Prop :=
  ∀ pid authorization p, s.procs pid = some ⟨.current authorization, p⟩ →
    ∀ token, bearer cfg authorization = .ok token → ∀ now q, cfg.decode now token = .ok q → s.Issued token

private theorem guardIssued_step {s s' : GuardState} {l : GuardLabel} {token : String} (hi : s.Issued token)
    (h : (guardService cfg).step s l = some s') : s'.Issued token := by
  obtain ⟨pid, req, r, hp, htoken⟩ := hi
  exact ⟨pid, req, r, done_step hp h, htoken⟩

private theorem presented_step {s s' : GuardState} {l : GuardLabel} (hs : s.Presented cfg)
    (hc : GuardUnforged cfg s l) (h : (guardService cfg).step s l = some s') : s'.Presented cfg := by
  intro pid authorization p hp token hb now q hd
  refine guardIssued_step ?_ h
  by_cases hne : s.procs pid = some ⟨.current authorization, p⟩
  · exact hs pid authorization p hne token hb now q hd
  · rcases proc_turns h hp hne with ⟨rfl, -⟩ | ⟨out, o, k, rep, -, hproc, -, -⟩
    · exact hc token hb now q hd
    · exact hs pid authorization _ hproc token hb now q hd

/-- What is known in every state of a run in which no token is forged. -/
structure Guarded (cfg : AuthSettings) (s : GuardState) : Prop where
  staged : s.Staged cfg
  presented : s.Presented cfg
  behind : ∃ a, BehindGuard s a ∧ Bound cfg a ∧
    ∀ pid req r, a.procs pid = some ⟨req, .done (.ok (.tokens r))⟩ → PairTyped cfg r

private theorem staged_idle (w : AuthWorld) : GuardState.Staged cfg (idle w) := by
  intro pid authorization p hp
  cases hp

private theorem presented_idle (w : AuthWorld) : GuardState.Presented cfg (idle w) := by
  intro pid authorization p hp
  cases hp

private theorem guarded_run (hdecode : ∀ now p q, cfg.decode now (cfg.encode p) = .ok q → q = p)
    {w : AuthWorld} (hw : w.Initial) {ls : List GuardLabel} {s : GuardState}
    (hm : (guardService cfg).Meets (GuardUnforged cfg) (idle w) ls)
    (hrun : (guardService cfg).run (idle w) ls = some s) : Guarded cfg s := by
  have hboth : s.Staged cfg ∧ s.Presented cfg := by
    have hkeep : ∀ (s : GuardState) l (s' : GuardState), s.Staged cfg ∧ s.Presented cfg → GuardUnforged cfg s l →
        (guardService cfg).step s l = some s' → s'.Staged cfg ∧ s'.Presented cfg :=
      fun s l s' hs hc h => ⟨staged_step hs.1 h, presented_step hs.2 hc h⟩
    exact run_induct hkeep ⟨staged_idle w, presented_idle w⟩ hm hrun
  have hstep : ∀ (s : GuardState) a l s', (s.Staged cfg ∧ BehindGuard s a) → GuardUnforged cfg s l →
      (guardService cfg).step s l = some s' → Matches (authService cfg) (Unforged cfg)
        (fun (s : GuardState) a => s.Staged cfg ∧ BehindGuard s a) s' a (guardView s l) := by
    rintro s a l s' ⟨hs, hb⟩ hc h
    have hmatch := behind_step hs hb hc h
    have hs' := staged_step hs h
    cases hv : guardView s l with
    | none =>
      rw [hv] at hmatch
      exact ⟨hs', hmatch⟩
    | some m =>
      rw [hv] at hmatch
      obtain ⟨hD, a', ha', hb'⟩ := hmatch
      exact ⟨hD, a', ha', hs', hb'⟩
  have hidle : BehindGuard (idle w) (idle w) := ⟨rfl, fun pid => .none⟩
  obtain ⟨hmeets, a, ha, -, hb⟩ := run_viewed hstep ⟨staged_idle w, hidle⟩ hm hrun
  have hbound : Bound cfg a :=
    run_induct (fun _ _ _ hi hc hs => bound_step hdecode hi hc hs) (bound_idle hw) hmeets ha
  exact ⟨hboth.1, hboth.2, a, hb, hbound, fun pid req r hp => typed_run ha hp⟩

/-- What the token of a verdict says. -/
private theorem tokenVerdict_ok {now : Nat} {token : String} {userId tenantId : Uuid}
    (h : tokenVerdict cfg now token = .ok (userId, tenantId)) :
    ∃ p, cfg.decode now token = .ok p ∧ p.typ = .access ∧ readDecimal p.sub.toList = some userId ∧
      readDecimal p.tid.toList = some tenantId := by
  unfold tokenVerdict at h
  cases hd : cfg.decode now token with
  | error e => simp [hd] at h
  | ok p =>
    simp only [hd] at h
    by_cases htyp : p.typ ≠ .access
    · simp [htyp] at h
    · rw [if_neg htyp] at h
      cases hsub : readDecimal p.sub.toList with
      | none => simp [hsub] at h
      | some u =>
        cases htid : readDecimal p.tid.toList with
        | none => simp [hsub, htid] at h
        | some t =>
          obtain ⟨rfl, rfl⟩ : u = userId ∧ t = tenantId := by simpa [hsub, htid] using h
          exact ⟨p, rfl, not_not.mp htyp, hsub, htid⟩

section Guarded

variable {s : GuardState} {token : String} {now : Nat} {p : TokenPayload}

/-- An issued token is that of a user of the table. -/
theorem Guarded.user (hdecode : ∀ now p q, cfg.decode now (cfg.encode p) = .ok q → q = p)
    (hg : Guarded cfg s) (hi : s.Issued token) (hd : cfg.decode now token = .ok p) :
    ∃ u ∈ s.world.users.rows, readDecimal p.sub.toList = some u.id ∧
      readDecimal p.tid.toList = some u.tenantId := by
  obtain ⟨a, hb, hbound, -⟩ := hg.behind
  obtain ⟨u, hu, q, rfl, hsub, htid⟩ := hbound.user (hb.issued.mp hi)
  obtain rfl := hdecode now q p hd
  rw [hb.world] at hu
  exact ⟨u, hu, by rw [hsub, readDecimal_toString], by rw [htid, readDecimal_toString]⟩

/-- Users have different ids. -/
private theorem Guarded.same (hg : Guarded cfg s) {u v : User} (hu : u ∈ s.world.users.rows)
    (hv : v ∈ s.world.users.rows) (hid : u.id = v.id) : u = v := by
  obtain ⟨a, hb, hbound, -⟩ := hg.behind
  have hnodup : (a.world.users.rows.map User.id).Nodup := hbound.apart.nodup none
  rw [hb.world] at hnodup
  exact List.inj_on_of_nodup_map hnodup hu hv hid

/-- An issued token that decodes to an access token was issued as one. -/
theorem Guarded.access (hdecode : ∀ now p q, cfg.decode now (cfg.encode p) = .ok q → q = p)
    (hg : Guarded cfg s) (hi : s.Issued token) (hd : cfg.decode now token = .ok p) (htyp : p.typ = .access) :
    s.IssuedAccess token := by
  obtain ⟨a, hb, -, htyped⟩ := hg.behind
  obtain ⟨pid, req, r, hp, rfl | rfl⟩ := hi
  · exact ⟨pid, req, r, hp, rfl⟩
  · obtain ⟨q, hq, hrefresh⟩ := (htyped pid req r (hb.answered.mp hp)).refresh
    rw [hq] at hd
    obtain rfl := hdecode now q p hd
    rw [hrefresh] at htyp
    cases htyp

/-- The row that the guard reads. -/
private theorem Guarded.row (hg : Guarded cfg s) {pid : Nat} {authorization : Option String}
    {prog : Auth GuardReply} (hp : s.procs pid = some ⟨.current authorization, prog⟩) {userId : Uuid}
    {u : User} (h : (authReply pid (.getUser userId) s.world).1 = .ok (some u)) :
    u ∈ s.world.users.rows ∧ u.id = userId := by
  obtain ⟨a, hb, hbound, -⟩ := hg.behind
  have hsees := hb.procs pid
  rw [hp] at hsees
  generalize hq : a.procs pid = q at hsees
  cases hsees with
  | current _ _ o k =>
    obtain ⟨φ, -, hf⟩ := hbound.obeys pid _ hq
    have hnil : (s.world.sessions pid).newUsers = [] := hb.world ▸ hf.noUsers fun q h => by cases h
    have hfind : (s.world.users.rows ++ (s.world.sessions pid).newUsers).find?
      (fun u => u.id = userId) = some u := Except.ok.inj h
    rw [hnil, List.append_nil] at hfind
    exact ⟨List.mem_of_find?_eq_some hfind, by simpa using List.find?_some hfind⟩

end Guarded

/-- A guarded request has been let in as a user: it has presented an access token of the service that was
valid at one moment, and at a later one its user was active. -/
def LetInActive (cfg : AuthSettings) (s₀ : GuardState) (ls : List GuardLabel) (pid : Nat)
    (authorization : Option String) (userId tenantId : Uuid) : Prop :=
  ∃ ls₁ ls₂ ls₃, ∃ u v : GuardState, ∃ token p, ls = ls₁ ++ ls₂ ++ ls₃ ∧
    (guardService cfg).run s₀ ls₁ = some u ∧
    (guardService cfg).run u ls₂ = some v ∧ u.Serves pid (.current authorization) ∧
    v.Serves pid (.current authorization) ∧ bearer cfg authorization = .ok token ∧ u.IssuedAccess token ∧
    cfg.decode u.world.clock token = .ok p ∧
    ∃ user ∈ v.world.users.rows, user.id = userId ∧ user.tenantId = tenantId ∧ user.isActive = true

/-- As long as no token is forged, whoever is let in has presented an access token that the service issued
and that was valid when it was checked, and is a user who was active when the row was read, in the user's
own tenant. -/
theorem let_in_active (cfg : AuthSettings)
    (hdecode : ∀ now p q, cfg.decode now (cfg.encode p) = .ok q → q = p) (w : AuthWorld) (hw : w.Initial)
    (ls : List GuardLabel) (s : GuardState) (hm : (guardService cfg).Meets (GuardUnforged cfg) (idle w) ls)
    (hrun : (guardService cfg).run (idle w) ls = some s) (pid : Nat) (authorization : Option String)
    (userId tenantId : Uuid)
    (hp : s.procs pid = some ⟨.current authorization, .done (.ok (.user userId tenantId))⟩) :
    LetInActive cfg (idle w) ls pid authorization userId tenantId := by
  obtain ⟨ls₁₂, l₃, ls₃, v, v', rfl, hv, hnv, hl₃, hv', -⟩ := run_turns (P := fun s : GuardState =>
    s.procs pid = some ⟨.current authorization, .done (.ok (.user userId tenantId))⟩) hrun
      (fun h => by cases h) hp
  have hgv := guarded_run hdecode hw (meets_append hm hv).1 hv
  obtain ⟨hread, user, hrow, hactive⟩ := row_turns hgv.staged hl₃ hv' hnv
  obtain ⟨ls₁, l₂, ls₂, u, u', rfl, hu, hnu, hl₂, hu', hrest⟩ := run_turns (P := fun s : GuardState =>
    s.procs pid = some ⟨.current authorization, readsUser userId tenantId⟩) hv (fun h => by cases h) hread
  have hgu := guarded_run hdecode hw (meets_append (meets_append hm hv).1 hu).1 hu
  obtain ⟨⟨prog, hserves⟩, token, hbearer, hverdict⟩ := token_turns hgu.staged hl₂ hu' hnu
  obtain ⟨p, hd, htyp, hsub, htid⟩ := tokenVerdict_ok hverdict
  have hissued := hgu.presented pid authorization prog hserves token hbearer _ p hd
  obtain ⟨u₀, hu₀, hid₀, htid₀⟩ :=
    hgv.user hdecode (hgv.presented pid authorization _ hread token hbearer _ p hd) hd
  obtain ⟨hmem, hid⟩ := hgv.row hread hrow
  obtain rfl : u₀.id = userId := Option.some.inj (hid₀.symm.trans hsub)
  obtain rfl : u₀.tenantId = tenantId := Option.some.inj (htid₀.symm.trans htid)
  obtain rfl := hgv.same hmem hu₀ hid
  refine ⟨ls₁, l₂ :: ls₂, l₃ :: ls₃, u, v, token, p, rfl, hu, ?_, ⟨prog, hserves⟩, ⟨_, hread⟩, hbearer,
    hgu.access hdecode hissued hd htyp, hd, user, hmem, rfl, rfl, hactive⟩
  show ((guardService cfg).step u l₂).bind _ = _
  rw [hl₂]
  exact hrest

/-- In every state that is reached without a forged token, an access token of the service that is still
valid lets its user in, in the user's tenant, if the user is active and nothing else happens meanwhile. -/
theorem access_lets_in (cfg : AuthSettings)
    (hdecode : ∀ now p q, cfg.decode now (cfg.encode p) = .ok q → q = p) (w : AuthWorld) (hw : w.Initial)
    (ls : List GuardLabel) (s : GuardState) (hm : (guardService cfg).Meets (GuardUnforged cfg) (idle w) ls)
    (hrun : (guardService cfg).run (idle w) ls = some s) (pid : Nat) (hp : s.procs pid = none)
    (authorization : Option String) (token : String) (hb : bearer cfg authorization = .ok token)
    (hi : s.IssuedAccess token) (p : TokenPayload) (hd : cfg.decode s.world.clock token = .ok p)
    (user : User) (hu : user ∈ s.world.users.rows) (hsub : p.sub = toString user.id)
    (hactive : user.isActive = true) :
    ∃ n t, (guardService cfg).run s
      (.start pid (.current authorization) :: List.replicate n (.call pid .ok)) =
      some t ∧ t.result pid = some (.ok (.user user.id user.tenantId)) := by
  have hg := guarded_run hdecode hw hm hrun
  obtain ⟨pid', req, r, hpair, rfl⟩ := hi
  obtain ⟨a, hbehind, hbound, htyped⟩ := hg.behind
  obtain ⟨q, hq, htyp⟩ := (htyped pid' req r (hbehind.answered.mp hpair)).access
  obtain rfl : p = q := by
    rw [hq] at hd
    exact hdecode _ q p hd
  obtain ⟨u₀, hu₀, hid₀, htid₀⟩ := hg.user hdecode ⟨pid', req, r, hpair, Or.inl rfl⟩ hd
  rw [hsub, readDecimal_toString] at hid₀
  obtain rfl := hg.same hu hu₀ (Option.some.inj hid₀)
  have hverdict : tokenVerdict cfg s.world.clock r.accessToken = .ok (user.id, user.tenantId) := by
    simp only [tokenVerdict, hd, htyp, hsub, readDecimal_toString, htid₀, ne_eq, not_true_eq_false, if_false]
  have hfind : s.world.users.rows.find? (fun u => u.id = user.id) = some user := by
    obtain ⟨v, hv⟩ := Option.isSome_iff_exists.mp
      (List.find?_isSome (p := fun u => decide (u.id = user.id)).mpr ⟨user, hu, by simp⟩)
    rw [hv, hg.same (List.mem_of_find?_eq_some hv) hu (by simpa using List.find?_some hv)]
  have hexec : (((GuardRequest.current authorization).program cfg).exec (authReply pid)
      (s.world.openSession pid)).1 = .ok (.user user.id user.tenantId) := by
    have hclock : authReply pid .now (s.world.openSession pid) =
      (.ok s.world.clock, s.world.openSession pid) :=
      rfl
    have hrow : (authReply pid (.getUser user.id) (s.world.openSession pid)).1 = .ok (some user) := by
      show Except.ok ((s.world.users.rows ++ ((s.world.openSession pid).sessions pid).newUsers).find?
        (fun u => u.id = user.id)) = _
      rw [show ((s.world.openSession pid).sessions pid).newUsers = [] by
        simp [AuthWorld.openSession, AuthSession.fresh], List.append_nil, hfind]
    rw [current_program, hb, cont_ok, exec_call, hclock]
    simp only [checksToken, hverdict, cont_ok, readsUser_eq, exec_call, hrow, checksRow, hactive,
      not_true_eq_false, if_false, exec_done]
  obtain ⟨n, hn⟩ := run_serve (S := guardService cfg) (GuardRequest.current authorization) hp
  refine ⟨n, _, hn, ?_⟩
  rw [State.result_eq_some]
  refine ⟨.current authorization, ?_⟩
  rw [State.set_procs_self]
  exact congrArg (fun x => some (Proc.mk _ (Prog.done x))) hexec

/-! ### A run -/

/-- What a header presents is the access token of the first request; nothing is refreshed. -/
def presentsAccess (s : GuardState) : GuardLabel → Bool
  | .start _ (.current authorization) =>
    match s.procs 0 with
    | some ⟨.auth _, .done (.ok (.auth (.tokens r)))⟩ =>
      (bearer plainSettings authorization).toOption = some r.accessToken
    | _ => false
  | .start _ (.auth (.refresh _)) => false
  | _ => true

private theorem unforged_of_access {s : GuardState} {l : GuardLabel} (h : presentsAccess s l = true) :
    GuardUnforged plainSettings s l := by
  cases l with
  | call pid out => trivial
  | env e => trivial
  | start pid r =>
    cases r with
    | auth req =>
      cases req with
      | refresh q => cases h
      | _ => trivial
    | current authorization =>
      intro token hb now p hd
      simp only [presentsAccess] at h
      split at h
      · rename_i req r hp
        rw [hb] at h
        exact ⟨0, req, r, hp, Or.inl (Option.some.inj (of_decide_eq_true h))⟩
      · cases h

/-- The user logs in. -/
def guardLogin : List GuardLabel :=
  .start 0 (.auth (.login ⟨"an@example.vn", "secret", "default", none, none⟩)) ::
    List.replicate 12 (.call 0 .ok)

/-- The header with the access token of this login. -/
def firstHeader : Option String := some "bearer 2.1.access.10.900.0"

/-- The login, and a request with its access token. -/
def guardedRun : List GuardLabel :=
  guardLogin ++ .start 1 (.current firstHeader) :: List.replicate 2 (.call 1 .ok)

theorem let_in_active_login : ∃ s, (guardService plainSettings).run (idle AuthWorld.oneUser) guardedRun =
    some s ∧ s.result 1 = some (.ok (.user 2 1)) ∧
      LetInActive plainSettings (idle AuthWorld.oneUser) guardedRun 1 firstHeader 2 1 := by
  have hmeets : (guardService plainSettings).Meets (GuardUnforged plainSettings) (idle AuthWorld.oneUser)
      guardedRun :=
    Meets.imp (fun _ _ h => unforged_of_access h)
      (by decide +kernel : (guardService plainSettings).Meets (fun s l => presentsAccess s l = true)
        (idle AuthWorld.oneUser) guardedRun)
  obtain ⟨s, hrun, hreq, hresult⟩ : ∃ s,
    (guardService plainSettings).run (idle AuthWorld.oneUser) guardedRun =
      some s ∧ (s.procs 1).map Proc.req = some (.current firstHeader) ∧
        s.result 1 = some (.ok (.user 2 1)) := ⟨_, rfl, rfl, rfl⟩
  obtain ⟨req, hp⟩ := State.result_eq_some.mp hresult
  rw [hp] at hreq
  obtain rfl : req = .current firstHeader := Option.some.inj hreq
  exact ⟨s, hrun, hresult, let_in_active plainSettings plain_decode_encode AuthWorld.oneUser oneUser_initial
    guardedRun s hmeets hrun 1 firstHeader 2 1 hp⟩

/-- The user of `oneUser`. -/
def firstUser : User := ⟨⟨1, "an@example.vn", "7$secret", none⟩, 2, true, some 0⟩

theorem access_lets_in_login : ∃ s, (guardService plainSettings).run (idle AuthWorld.oneUser) guardLogin =
    some s ∧ ∃ n t, (guardService plainSettings).run s
      (.start 1 (.current firstHeader) :: List.replicate n (.call 1 .ok)) = some t ∧
        t.result 1 = some (.ok (.user firstUser.id firstUser.tenantId)) := by
  have hmeets : (guardService plainSettings).Meets (GuardUnforged plainSettings) (idle AuthWorld.oneUser)
      guardLogin :=
    Meets.imp (fun _ _ h => unforged_of_access h)
      (by decide +kernel : (guardService plainSettings).Meets (fun s l => presentsAccess s l = true)
        (idle AuthWorld.oneUser) guardLogin)
  obtain ⟨s, hrun, hfree, hpair, husers, hclock⟩ : ∃ s,
      (guardService plainSettings).run (idle AuthWorld.oneUser) guardLogin = some s ∧ s.procs 1 = none ∧
      (∃ req r, s.procs 0 = some ⟨.auth req, .done (.ok (.auth (.tokens r)))⟩ ∧
        "2.1.access.10.900.0" = r.accessToken) ∧ s.world.users.rows = [firstUser] ∧ s.world.clock = 0 :=
    ⟨_, rfl, rfl, ⟨_, _, rfl, by decide +kernel⟩, rfl, rfl⟩
  obtain ⟨req, r, hp, htoken⟩ := hpair
  refine ⟨s, hrun, access_lets_in plainSettings plain_decode_encode AuthWorld.oneUser oneUser_initial
    guardLogin s hmeets hrun 1 hfree firstHeader "2.1.access.10.900.0" (by decide +kernel)
    ⟨0, req, r, hp, htoken⟩ ⟨"2", "1", .access, "10", 900, 0⟩ ?_ firstUser ?_ rfl rfl⟩
  · rw [hclock]
    rfl
  · rw [husers]
    exact List.mem_singleton_self _

end LegalRag
