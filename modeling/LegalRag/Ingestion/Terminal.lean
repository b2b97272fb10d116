import LegalRag.Ingestion.JobPhases
import LegalRag.Ingestion.Stages

/-!
# Indexed is a terminal state

The executions of the job on one document, in any interleaving (`ingestService`).  `terminal`: once the
document is indexed it stays so, in every run in which `indexed` is committed only while no other
execution is at work on the document, and in which nothing raises an exception after that commit.  Without
the one or the other, an execution sets the status of an indexed document to something else (`set_back`,
`set_back_by_another`).
-/

namespace LegalRag

open Calls Service Relational

/-- The executions of `process_document` on the document `d`. -/
def ingestService (lib : ChunkerLib) (d : Uuid) :
    Service JobCalls JobErr JobWorld JobReplies Empty JobResult where
  program _ := processDocument lib d
  enter := JobWorld.begin
  handle pid env := jobReply pid env
  env e := e.elim

abbrev IngestState := State JobCalls JobErr JobWorld JobReplies JobResult
abbrev IngestLabel := Label JobErr JobReplies Empty

/-- The next call of an execution. -/
def nextCall (s : IngestState) (pid : Nat) : Option JobOp :=
  match s.procs pid with
  | some ⟨_, .call o _⟩ => some o
  | _ => none

/-- An execution that has read the row as not indexed has more calls to make. -/
def AtWork (d : Uuid) (s : IngestState) (pid : Nat) : Prop :=
  (nextCall s pid).isSome ∧ (s.world.executions pid).atWork d

/-- A commit that sets `indexed` finds no other execution at work, and is not reported as failed if it
takes effect; and no later call of the execution raises an exception. -/
def Undisturbed (d : Uuid) (s : IngestState) : IngestLabel → Prop
  | .call pid out =>
    (nextCall s pid = some .commit → setIndexed d (s.world.executions pid).pending →
      (∀ q, q ≠ pid → ¬ AtWork d s q) ∧ ¬ (out.applied ∧ raisesException out)) ∧
      (setIndexed d (s.world.executions pid).committed → ¬ raisesException out)
  | _ => True

/-- Once the document is indexed, it stays indexed. -/
def Terminal (lib : ChunkerLib) (d : Uuid) (s : IngestState) (ls : List IngestLabel) : Prop :=
  ∀ ls₁ ls₂ t u, ls₁ ++ ls₂ <+: ls → (ingestService lib d).run s ls₁ = some t →
    (ingestService lib d).run t ls₂ = some u → IsIndexed d t.world.stores → IsIndexed d u.world.stores

variable {lib : ChunkerLib} {d : Uuid}

/-- Every execution is in a phase of the job. -/
abbrev InJobPhase (d : Uuid) (s : IngestState) : Prop :=
  s.Obeys (fun _ => ingests d) (fun _ _ _ => True) fun _ pid φ w => φ.Fits d (w.executions pid)

/-- Nobody is at work on an indexed document. -/
def NobodyAtWork (d : Uuid) (s : IngestState) : Prop := IsIndexed d s.world.stores → ∀ q, ¬ AtWork d s q

private theorem applyAll_notIndexed {sts : List Stmt} (hsts : setIndexed d sts = false) {s s' : Stores}
    (hn : NotIndexed d s) (h : s.applyAll sts = some s') : NotIndexed d s' := by
  induction sts generalizing s with
  | nil =>
    obtain rfl : s = s' := by simpa [Stores.applyAll] using h
    exact hn
  | cons st sts ih =>
    simp only [setIndexed, List.any_cons, Bool.or_eq_false_iff] at hsts
    obtain ⟨s₁, h₁, h₂⟩ := Option.bind_eq_some_iff.mp h
    refine ih hsts.2 ?_ h₂
    cases st with
    | updateDocument id u =>
      obtain rfl : s.update id u = s₁ := Option.some.inj h₁
      intro doc hdoc hid hst
      obtain ⟨doc', hdoc', rfl⟩ : ∃ doc' ∈ s.documents.rows, u.apply id doc' = doc := List.mem_map.mp hdoc
      by_cases hd : doc'.id = id
      · have hids : id = d := hd.symm.trans ((u.apply_key id doc').symm.trans hid)
        have hu : u.status = .indexed := by simpa [StatusUpdate.apply, hd] using hst
        simp [Stmt.setsIndexed, hids, hu] at hsts
      · rw [StatusUpdate.apply, if_neg hd] at hid hst
        exact hn doc' hdoc' hid hst
    | insertChunks rows =>
      simp only [Stores.applyStmt] at h₁
      split at h₁
      · obtain ⟨t, -, rfl⟩ := Option.map_eq_some_iff.mp h₁
        exact hn
      · cases h₁

/-- The documents after a call of an execution in the phase `φ`. -/
private theorem documents_call {φ : JobPhase} {pid : Nat} {env : JobReplies} {o : JobCalls.Op} {w : JobWorld}
    (ha : (ingests d).allows φ o) (hf : φ.Fits d (w.executions pid)) :
    (jobReply pid env o w).2.stores.documents = w.stores.documents ∨ (w.executions pid).atWork d := by
  rcases jobReply_documents pid env o w with h | ⟨rfl, h⟩
  · exact Or.inl h
  · cases φ with
    | unread => rcases ha with ha | ha <;> cases ha
    | ended =>
      have hp : (w.executions pid).pending = [] := hf
      rw [hp] at h
      left
      rw [← Option.some.inj h]
    | past => exact Or.inr hf.1
    | final => exact Or.inr hf.1
    | dirty => exact Or.inr hf
    | indexed =>
      obtain ⟨channel, e, he⟩ := ha
      cases he
    | halted => exact False.elim ha

/-- What the outcome of a call leaves: the world as it was, or the world after the call. -/
private theorem cancelled_of_not_raises {out : Outcome JobErr} {err : JobErr} {applied : Bool}
    (hout : out = .raised err applied) (h : ¬ raisesException out) : err = .cancelled := by
  subst hout
  cases err with
  | exception text => exact absurd rfl h
  | cancelled => rfl

/-- A step leaves the records of the other executions alone. -/
private theorem executions_step {s s' : IngestState} {l : IngestLabel}
    (h : (ingestService lib d).step s l = some s') {q : Nat}
    (hq : l.pid ≠ some q) : s'.world.executions q = s.world.executions q := by
  rcases step_cases h with ⟨pid, r, rfl, -, rfl⟩ | ⟨pid, out, env, o, k, rfl, -, rfl⟩ | ⟨e, -⟩
  · have hne : q ≠ pid := fun he => hq (by rw [he]; rfl)
    exact Function.update_of_ne hne _ _
  · have hne : q ≠ pid := fun he => hq (by rw [he]; rfl)
    rw [resume_world]
    exact jobHandler_others hne env o s.world out
  · exact e.elim

private theorem inJobPhase_step {s s' : IngestState} {l : IngestLabel} (hs : InJobPhase d s)
    (hc : Undisturbed d s l) (h : (ingestService lib d).step s l = some s') : InJobPhase d s' := by
  refine obeys_step ?_ ?_ ?_ hs h
  · intro pid env w
    refine ⟨.unread, processDocument_obeys, ?_⟩
    show (w.begin pid).executions pid = Execution.start
    simp [JobWorld.begin]
  · rintro pid env o k out φ rep rfl hproc ha hf hrep
    refine ⟨fun _ _ => trivial, ?_⟩
    obtain ⟨hcommit, hafter⟩ := hc
    have hnext : nextCall s pid = some o := by simp [nextCall, hproc]
    cases out with
    | ok =>
      obtain rfl : (jobReply pid env o s.world).1 = rep :=
        by simpa [Outcome.reply, ingestService] using hrep
      show (Protocol.after _ φ o _).Fits d ((jobReply pid env o s.world).2.executions pid)
      cases hr : (jobReply pid env o s.world).1 with
      | ok a =>
        rw [jobReply_after hr]
        exact fits_next ha hf a
      | error err =>
        rw [jobReply_error hr]
        refine fits_failed ha hf ?_
        rintro rfl
        -- a publish is not refused
        obtain ⟨channel, ev, rfl⟩ := ha
        cases hr
    | raised err applied =>
      obtain rfl : .error err = rep := by simpa [Outcome.reply] using hrep
      have hcancel : ¬ raisesException (.raised err applied) → err = .cancelled :=
        cancelled_of_not_raises rfl
      have hindexed : φ = .indexed → err = .cancelled := by
        rintro rfl
        exact hcancel (hafter hf)
      cases applied with
      | false => exact fits_failed ha hf hindexed
      | true =>
        show ((ingests d).failed φ o err).Fits d ((jobReply pid env o s.world).2.executions pid)
        cases hr : (jobReply pid env o s.world).1 with
        | ok a =>
          rw [jobReply_after hr]
          refine fits_failed_after ha hf a ?_ hindexed
          intro ho hp
          have hno := (hcommit (by rw [hnext, ho]) hp).2
          exact hcancel fun hraise => hno ⟨rfl, hraise⟩
        | error e =>
          rw [jobReply_error hr]
          exact fits_failed ha hf hindexed
    | crashed applied => simp [Outcome.reply] at hrep
  · intro q p φ hq hp _ hf
    show φ.Fits d (s'.world.executions q)
    rw [executions_step h hq]
    exact hf

private theorem atWork_of_others {s s' : IngestState} {l : IngestLabel}
    (h : (ingestService lib d).step s l = some s') {q : Nat}
    (hq : l.pid ≠ some q) (hw : AtWork d s' q) : AtWork d s q := by
  obtain ⟨hnext, hrec⟩ := hw
  rw [executions_step h hq] at hrec
  refine ⟨?_, hrec⟩
  rw [nextCall, step_procs hq h] at hnext
  exact hnext

/-- A call makes its execution be at work only by reading a row that is not indexed. -/
private theorem atWork_after {e : Execution} {o : JobCalls.Op} {a : JobCalls.Resp o}
    (h : (e.after o a).atWork d) :
    e.atWork d ∨ ∃ id, o = .getInternal id ∧ ∃ doc, (e.after o a).loaded = some doc ∧
    doc.status ≠ .indexed := by
  cases o with
  | getInternal id => exact Or.inr ⟨id, rfl, (Execution.atWork_iff.mp h).1⟩
  | commit =>
    obtain ⟨hread, hc⟩ := Execution.atWork_iff.mp h
    have hc : setIndexed d (e.committed ++ e.pending) = false := hc
    rw [setIndexed_append, Bool.or_eq_false_iff] at hc
    exact Or.inl (Execution.atWork_iff.mpr ⟨hread, hc.1⟩)
  | _ => exact Or.inl h

/-- What a call leaves when the documents stay as they are. -/
private theorem not_atWork_call {φ : JobPhase} {pid : Nat} {env : JobReplies} {o : JobCalls.Op} {w : JobWorld}
    (ha : (ingests d).allows φ o) (hi : IsIndexed d w.stores) (hw : ¬ (w.executions pid).atWork d) :
    ¬ ((jobReply pid env o w).2.executions pid).atWork d := by
  cases hr : (jobReply pid env o w).1 with
  | error err =>
    rw [jobReply_error hr]
    exact hw
  | ok a =>
    rw [jobReply_after hr]
    intro h
    rcases atWork_after h with h | ⟨id, rfl, doc, hdoc, hst⟩
    · exact hw h
    · have hid : id = d := by
        cases φ with
        | unread => simpa [ingests] using ha
        | past => exact False.elim ha
        | _ => simp [ingests] at ha
      subst hid
      have hfind : w.stores.documents.rows.find? (fun r => r.key = id) = some doc :=
        (Except.ok.inj hr).trans hdoc
      obtain ⟨doc', hdoc', hid', hst'⟩ := hi
      have hkey : doc.key = id := by simpa using List.find?_some hfind
      have heq : doc = doc' :=
        w.stores.documents.eq_of_key (List.mem_of_find?_eq_some hfind) hdoc' (hkey.trans hid'.symm)
      rw [heq] at hst
      exact hst hst'

private theorem terminal_step {s s' : IngestState} {l : IngestLabel} (hs : InJobPhase d s)
    (hn : NobodyAtWork d s) (hc : Undisturbed d s l) (h : (ingestService lib d).step s l = some s') :
    (IsIndexed d s.world.stores → IsIndexed d s'.world.stores) ∧ NobodyAtWork d s' := by
  have hothers : ∀ q, l.pid ≠ some q → AtWork d s' q → AtWork d s q := fun q hq => atWork_of_others h hq
  rcases step_cases h with ⟨pid, r, rfl, -, rfl⟩ | ⟨pid, out, env, o, k, rfl, hproc, rfl⟩ | ⟨e, -⟩
  · refine ⟨fun hi => hi, fun hi q hq => ?_⟩
    by_cases hne : q = pid
    · subst hne
      have hstart : ((ingestService lib d).enter q s.world).executions q = Execution.start := by
        simp [ingestService, JobWorld.begin]
      have hrec := hq.2
      rw [State.set_world, hstart] at hrec
      cases hrec
    · exact hn hi q (hothers q (fun he => hne (by simpa [Label.pid] using he.symm)) hq)
  · obtain ⟨φ, ⟨ha, -, -⟩, hf⟩ := hs pid _ hproc
    have hnext : nextCall s pid = some o := by simp [nextCall, hproc]
    have hothers := fun (q : Nat) (hne : q ≠ pid) => hothers q fun he =>
      hne (by simpa [Label.pid] using he.symm)
    have hwork : (s.world.executions pid).atWork d → AtWork d s pid := by
      intro h
      refine ⟨?_, h⟩
      rw [hnext]
      rfl
    have hv : out.world ((ingestService lib d).handle pid env) o s.world = s.world ∨
        out.world ((ingestService lib d).handle pid env) o s.world = (jobReply pid env o s.world).2 :=
      Outcome.world_eq _ o s.world out
    rw [NobodyAtWork, resume_world]
    rcases hv with hv | hv
    · -- the call has no effect
      rw [hv] at hothers ⊢
      refine ⟨fun hi => hi, fun hi q hq => ?_⟩
      by_cases hne : q = pid
      · subst hne
        have hrec := hq.2
        rw [resume_world] at hrec
        exact hn hi q (hwork hrec)
      · exact hn hi q (hothers q hne hq)
    · rw [hv] at hothers ⊢
      by_cases hbefore : IsIndexed d s.world.stores
      · -- nobody is at work, so the documents stay as they are
        have hnot : ¬ (s.world.executions pid).atWork d := fun h => hn hbefore pid (hwork h)
        have hdocs := (@documents_call d φ pid env o s.world ha hf).resolve_right hnot
        refine ⟨fun _ => ?_, fun _ q hq => ?_⟩
        · rw [IsIndexed, hdocs]
          exact hbefore
        · by_cases hne : q = pid
          · subst hne
            have hrec := hq.2
            rw [resume_world] at hrec
            exact not_atWork_call ha hbefore hnot hrec
          · exact hn hbefore q (hothers q hne hq)
      · refine ⟨fun hi => absurd hi hbefore, fun hi q hq => ?_⟩
        -- the call is the commit that sets `indexed`
        rcases jobReply_documents pid env o s.world with hdocs | ⟨rfl, happ⟩
        · rw [IsIndexed, hdocs] at hi
          exact hbefore hi
        · cases hset : setIndexed d (s.world.executions pid).pending with
          | false =>
            exact notIndexed_iff.mp (applyAll_notIndexed hset (notIndexed_iff.mpr hbefore) happ) hi
          | true =>
            by_cases hne : q = pid
            · subst hne
              have hrec := hq.2
              rw [resume_world] at hrec
              have hcommitted := (Execution.atWork_iff.mp hrec).2
              cases hr : (jobReply q env .commit s.world).1 with
              | error err =>
                rw [jobReply_error hr] at hi
                exact hbefore hi
              | ok a =>
                rw [jobReply_after hr] at hcommitted
                have hall : setIndexed d ((s.world.executions q).committed ++
                  (s.world.executions q).pending) = false :=
                  hcommitted
                rw [setIndexed_append, hset, Bool.or_true] at hall
                cases hall
            · exact (hc.1 hnext hset).1 q hne (hothers q hne hq)
  · exact e.elim

/-- Of every run in which the commits of `indexed` are undisturbed. -/
private theorem invariant_run {w : JobWorld} {ls : List IngestLabel} {s : IngestState}
    (hm : (ingestService lib d).Meets (Undisturbed d) (idle w) ls)
    (h : (ingestService lib d).run (idle w) ls = some s) : InJobPhase d s ∧ NobodyAtWork d s := by
  have hstep : ∀ (s : IngestState) (l : IngestLabel) (s' : IngestState), InJobPhase d s ∧
    NobodyAtWork d s →
      Undisturbed d s l → (ingestService lib d).step s l = some s' → InJobPhase d s' ∧ NobodyAtWork d s' := by
    intro s l s' hi hc hs
    exact ⟨inJobPhase_step hi.1 hc hs, (terminal_step hi.1 hi.2 hc hs).2⟩
  have hidle : NobodyAtWork d (idle w : IngestState) := by
    rintro - q ⟨hnext, -⟩
    cases hnext
  exact run_induct hstep ⟨idle_obeys _ _ _ w, hidle⟩ hm h

/-- In every run in which `indexed` is committed only while no other execution is at work on the document,
and in which nothing raises an exception after that commit, an indexed document stays indexed. -/
theorem terminal (w : JobWorld) (ls : List IngestLabel)
    (hm : (ingestService lib d).Meets (Undisturbed d) (idle w) ls) : Terminal lib d (idle w) ls := by
  rintro ls₁ ls₂ t u ⟨ls₃, rfl⟩ ht hu hi
  rw [List.append_assoc] at hm
  obtain ⟨hm₁, hm₂⟩ := meets_append hm ht
  obtain ⟨hphase, hnobody⟩ := invariant_run hm₁ ht
  have hstep : ∀ (s : IngestState) (l : IngestLabel) (s' : IngestState),
      (InJobPhase d s ∧ NobodyAtWork d s) ∧ IsIndexed d s.world.stores → Undisturbed d s l →
      (ingestService lib d).step s l = some s' → (InJobPhase d s' ∧ NobodyAtWork d s') ∧
      IsIndexed d s'.world.stores := by
    intro s l s' hs hc hstep
    obtain ⟨hkeep, hnobody'⟩ := terminal_step hs.1.1 hs.1.2 hc hstep
    exact ⟨⟨inJobPhase_step hs.1.1 hc hstep, hnobody'⟩, hkeep hs.2⟩
  exact (run_induct hstep ⟨⟨hphase, hnobody⟩, hi⟩ (meets_append hm₂ hu).1 hu).2

/-! ### Runs on one document -/

instance (d : Uuid) (s : IngestState) (pid : Nat) : Decidable (AtWork d s pid) :=
  inferInstanceAs (Decidable (_ ∧ _))

/-- `Undisturbed`, for the executions numbered below `n`. -/
def UndisturbedBelow (d : Uuid) (n : Nat) (s : IngestState) : IngestLabel → Prop
  | .call pid out =>
    (nextCall s pid = some .commit → setIndexed d (s.world.executions pid).pending →
      (∀ q < n, q ≠ pid → ¬ AtWork d s q) ∧ ¬ (out.applied ∧ raisesException out)) ∧
      (setIndexed d (s.world.executions pid).committed → ¬ raisesException out)
  | _ => True

instance (d : Uuid) (n : Nat) (s : IngestState) : (l : IngestLabel) → Decidable (UndisturbedBelow d n s l)
  | .call _ _ => inferInstanceAs (Decidable ((_ → _ → (∀ q < n, _ → _) ∧ _) ∧ _))
  | .start _ _ | .env _ => isTrue trivial

private theorem undisturbed_of_below {n : Nat} {s : IngestState} {l : IngestLabel} (hs : s.Below n)
    (h : UndisturbedBelow d n s l) : Undisturbed d s l := by
  cases l with
  | call pid out =>
    refine ⟨fun hnext hset => ⟨fun q hne hq => ?_, (h.1 hnext hset).2⟩, h.2⟩
    by_cases hlt : q < n
    · exact (h.1 hnext hset).1 q hlt hne hq
    · have hnone : s.procs q = none := hs q (Nat.not_lt.mp hlt)
      have hnext := hq.1
      rw [nextCall, hnone] at hnext
      cases hnext
  | start pid r => trivial
  | env e => trivial

/-- The documents and their statuses after a run. -/
def statusesAfter (ls : List IngestLabel) : Option (List (Uuid × DocStatus)) :=
  ((ingestService plainChunker 3).run (idle .uploaded) ls).map fun s =>
    s.world.stores.documents.rows.map fun doc => (doc.id, doc.status)

/-- An execution, and another one after it. -/
def redeliveredRun : List IngestLabel :=
  .start 0 plainReplies :: List.replicate 27 (.call 0 .ok) ++
  .start 1 plainReplies :: List.replicate 3 (.call 1 .ok)

theorem terminal_redelivered :
    statusesAfter redeliveredRun = some [(3, .indexed)] ∧
    Terminal plainChunker 3 (idle .uploaded) redeliveredRun := by
  refine ⟨by decide +kernel, terminal .uploaded redeliveredRun ?_⟩
  refine meets_of_below 2 (UndisturbedBelow 3 2) (fun s l hs h => undisturbed_of_below hs h)
    (idle_below 2 _) ?_
  decide +kernel

private theorem not_terminal (st : DocStatus) {ls₁ ls₂ : List IngestLabel}
    (h₁ : statusesAfter ls₁ = some [(3, .indexed)]) (h₂ : statusesAfter (ls₁ ++ ls₂) = some [(3, st)])
    (hst : st ≠ .indexed) : ¬ Terminal plainChunker 3 (idle .uploaded) (ls₁ ++ ls₂) := by
  have hmem : ∀ s : Stores, IsIndexed 3 s ↔ (3, .indexed) ∈ s.documents.rows.map fun doc =>
      (doc.id, doc.status) := by
    intro s
    simp [IsIndexed]
  obtain ⟨u, hu, hlast⟩ := Option.map_eq_some_iff.mp h₂
  obtain ⟨t, ht, hu'⟩ := run_append hu
  rw [statusesAfter, ht, Option.map_some, Option.some.injEq] at h₁
  intro h
  have hi :=
    h ls₁ ls₂ t u List.prefix_rfl ht hu' ((hmem _).mpr (by rw [h₁]; exact List.mem_singleton.mpr rfl))
  rw [hmem, hlast, List.mem_singleton, Prod.mk.injEq] at hi
  exact hst hi.2.symm

/-- The event that publishes `indexed` raises, and the `except` block sets `failed`. -/
theorem set_back :
    ¬ Terminal plainChunker 3 (idle .uploaded)
      ((.start 0 plainReplies :: List.replicate 26 (.call 0 .ok)) ++
      .call 0 (.raised (.exception "ConnectionError") false) :: List.replicate 3 (.call 0 .ok)) :=
  not_terminal .failed (by decide +kernel) (by decide +kernel) (by decide)

/-- Two executions have both passed the check; when one is done, the other sets `parsing`. -/
theorem set_back_by_another :
    ¬ Terminal plainChunker 3 (idle .uploaded)
      ((.start 0 plainReplies :: .start 1 plainReplies :: List.replicate 2 (.call 1 .ok) ++
        List.replicate 26 (.call 0 .ok)) ++ List.replicate 2 (.call 1 .ok)) :=
  not_terminal .parsing (by decide +kernel) (by decide +kernel) (by decide)

end LegalRag
