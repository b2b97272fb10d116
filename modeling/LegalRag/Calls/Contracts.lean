import LegalRag.Calls.Effects
import LegalRag.Calls.Service

/-!
# Programs under a contract

`Prog.Accords R N post p`: as long as every call is answered as `R` says, with a value or with an
exception, the calls of `p` are ones of `N`, and it ends as `post` says.  In a service whose handler
answers the calls of `N` as `R` says, and keeps an invariant on which that depends, all requests end as
they should, however they interleave (`accords_run`).  Where calls may fail on the way, `R` lets them
(`MayFail`).
-/

namespace Calls

variable {I : Iface} {ε α β W ρ η : Type} {R : (o : I.Op) → Except ε (I.Resp o) → Prop} {N : I.Op → Prop}

namespace Prog

/-- With replies of `R`, the calls are of `N`, and the end satisfies `post`. -/
def Accords (R : (o : I.Op) → Except ε (I.Resp o) → Prop) (N : I.Op → Prop) (post : Except ε α → Prop) :
    Prog I ε α → Prop
  | .done r => post r
  | .call o k => N o ∧ ∀ r, R o r → (k r).Accords R N post

theorem Accords.mono {p : Prog I ε α} {post post' : Except ε α → Prop} (hp : p.Accords R N post)
    (h : ∀ r, post r → post' r) : p.Accords R N post' := by
  induction p with
  | done r => exact h r hp
  | call o k ih => exact ⟨hp.1, fun r hr => ih r (hp.2 r hr)⟩

/-- Fewer replies. -/
theorem Accords.imp {R' : (o : I.Op) → Except ε (I.Resp o) → Prop} {p : Prog I ε α} {post : Except ε α → Prop}
    (hp : p.Accords R N post) (h : ∀ o r, R' o r → R o r) : p.Accords R' N post := by
  induction p with
  | done r => exact hp
  | call o k ih => exact ⟨hp.1, fun r hr => ih r (hp.2 r (h o r hr))⟩

/-- A run in which the replies are of `R`. -/
theorem Accords.exec {h : Handler I ε W} (hreply : ∀ o w, R o (h o w).1) {p : Prog I ε α}
    {post : Except ε α → Prop} (hp : p.Accords R N post) (w : W) : post (p.exec h w).1 := by
  induction p generalizing w with
  | done r => exact hp
  | call o k ih => exact ih _ (hp.2 _ (hreply o w)) _

theorem accords_bind {p : Prog I ε α} {f : α → Prog I ε β} {post : Except ε β → Prop}
    (hp : p.Accords R N fun r => (cont f r).Accords R N post) : (p >>= f).Accords R N post := by
  induction p with
  | done r => exact done_bind r f ▸ hp
  | call o k ih => exact ⟨hp.1, fun r hr => ih r (hp.2 r hr)⟩

theorem accords_handle {p : Prog I ε α} {c : ε → Prog I ε α} {post : Except ε α → Prop}
    (hp : p.Accords R N fun r => ((.done r : Prog I ε α).handle c).Accords R N post) :
    (p.handle c).Accords R N post := by
  induction p with
  | done r => exact hp
  | call o k ih => exact ⟨hp.1, fun r hr => ih r (hp.2 r hr)⟩

private theorem accords_perform {o : I.Op} {post : Except ε (I.Resp o) → Prop} (ho : N o)
    (h : ∀ r, R o r → post r) : (perform o : Prog I ε (I.Resp o)).Accords R N post :=
  ⟨ho, h⟩

/-- A call, and then the rest of the program. -/
theorem accords_call {o : I.Op} {f : I.Resp o → Prog I ε β} {post : Except ε β → Prop} (ho : N o)
    (h : ∀ r, R o r → (cont f r).Accords R N post) : (perform o >>= f).Accords R N post :=
  accords_bind (accords_perform ho h)

/-- The replies of `R`, and exceptions where `F` holds. -/
def MayFail (F : Prop) (R : (o : I.Op) → Except ε (I.Resp o) → Prop) (o : I.Op)
    (r : Except ε (I.Resp o)) : Prop :=
  R o r ∨ F ∧ ∃ e, r = .error e

theorem MayFail.imp {F : Prop} {R R' : (o : I.Op) → Except ε (I.Resp o) → Prop}
    (h : ∀ o r, R o r → R' o r) {o : I.Op} {r : Except ε (I.Resp o)} (hr : MayFail F R o r) :
    MayFail F R' o r :=
  hr.imp_left (h o r)

/-- The same for the end of a program. -/
def OrFails (F : Prop) (post : Except ε α → Prop) (r : Except ε α) : Prop :=
  post r ∨ F ∧ ∃ e, r = .error e

/-- A call, of which an exception is not caught. -/
theorem accords_call_mayFail {F : Prop} {o : I.Op} {f : I.Resp o → Prog I ε β}
    {post : Except ε β → Prop} (ho : N o)
    (h : ∀ r, R o r → (cont f r).Accords (MayFail F R) N (OrFails F post)) :
    (perform o >>= f).Accords (MayFail F R) N (OrFails F post) := by
  refine accords_call ho fun r hr => ?_
  rcases hr with hr | ⟨hF, e, rfl⟩
  · exact h r hr
  · exact Or.inr ⟨hF, e, rfl⟩

/-- The same for a program. -/
theorem accords_bind_mayFail {F : Prop} {p : Prog I ε α} {f : α → Prog I ε β} {m : Except ε α → Prop}
    {post : Except ε β → Prop} (hp : p.Accords (MayFail F R) N (OrFails F m))
    (h : ∀ r, m r → (cont f r).Accords (MayFail F R) N (OrFails F post)) :
    (p >>= f).Accords (MayFail F R) N (OrFails F post) := by
  refine accords_bind (hp.mono fun r hr => ?_)
  rcases hr with hr | ⟨hF, e, rfl⟩
  · exact h r hr
  · exact Or.inr ⟨hF, e, rfl⟩

/-- A contract that says nothing of exceptions. -/
theorem accords_of_follows {F : (o : I.Op) → I.Resp o → Prop} (hR : ∀ o a, R o (.ok a) → F o a)
    {p : Prog I ε α}
    {post : α → Prop} (hp : p.Follows F N post) : p.Accords R N fun r => ∀ a, r = .ok a → post a := by
  induction p with
  | done r =>
    intro a ha
    subst ha
    exact hp
  | call o k ih =>
    refine ⟨hp.1, fun r hr => ?_⟩
    cases r with
    | ok a => exact ih _ (hp.2.1 a (hR o a hr))
    | error e => exact ih _ (hp.2.2 e)

end Prog

namespace Service

/-- Only requests of `A` are started. -/
def Label.Starts (A : ρ → Prop) : Label ε ρ η → Prop
  | .start _ r => A r
  | _ => True

/-- The environment only does what `E` allows. -/
def Label.Moves (E : η → Prop) : Label ε ρ η → Prop
  | .env e => E e
  | _ => True

private theorem Label.moves_any (l : Label ε ρ η) : l.Moves fun _ => True := by
  cases l <;> trivial

/-- A call fails on the way. -/
def Label.Raises : Label ε ρ η → Prop
  | .call _ (.raised ..) => True
  | _ => False

/-- The invariant holds, and what is left of every request accords with the contract. -/
structure State.Accords (R : (o : I.Op) → Except ε (I.Resp o) → Prop) (N : I.Op → Prop)
    (post : ρ → Except ε α → Prop) (inv : W → Prop) (s : State I ε W ρ α) : Prop where
  inv : inv s.world
  progs : ∀ pid p, s.procs pid = some p → p.prog.Accords R N (post p.req)

section Rule

variable {S : Service I ε W ρ η α} {post : ρ → Except ε α → Prop} {inv : W → Prop} {A : ρ → Prop}
    {E : η → Prop}

theorem accords_step (hprog : ∀ r, A r → (S.program r).Accords R N (post r))
    (henter : ∀ pid w, inv w → inv (S.enter pid w))
    (hcall : ∀ pid r o w, N o → inv w → inv (S.handle pid r o w).2 ∧ R o (S.handle pid r o w).1)
    (henv : ∀ e w w', E e → inv w → S.env e w = some w' → inv w') {s s' : State I ε W ρ α}
    {l : Label ε ρ η} (hs : s.Accords R N post inv) (hl : l.Starts A) (hmoves : l.Moves E)
    (hraise : l.Raises → ∀ o e, R o (.error e)) (h : S.step s l = some s') : s'.Accords R N post inv := by
  rcases step_cases h with ⟨pid, r, rfl, -, rfl⟩ | ⟨pid, out, r, o, k, rfl, hproc, rfl⟩ | ⟨e, w, rfl, hw, rfl⟩
  · -- a request begins
    refine ⟨henter pid _ hs.inv, ?_⟩
    intro q p hp
    rw [State.set_procs] at hp
    by_cases hq : q = pid
    · rw [if_pos hq] at hp
      obtain rfl : ⟨r, S.program r⟩ = p := Option.some.inj hp
      exact hprog r hl
    · rw [if_neg hq] at hp
      exact hs.progs q p hp
  · -- a call is answered, raises, or is the last one of its process
    obtain ⟨ho, hk⟩ := hs.progs pid _ hproc
    obtain ⟨hinv, hreply⟩ := hcall pid r o s.world ho hs.inv
    refine ⟨?_, ?_⟩
    · rw [resume_world]
      rcases Outcome.world_eq (S.handle pid r) o s.world out with hw | hw
      · rw [hw]
        exact hs.inv
      · rw [hw]
        exact hinv
    · intro q p hp
      by_cases hq : q = pid
      · subst hq
        have hout : ∀ rep, out.reply (S.handle q r) o s.world = some rep → R o rep := by
          intro rep hrep
          cases out with
          | ok =>
            obtain rfl := Option.some.inj hrep
            exact hreply
          | raised e applied =>
            obtain rfl := Option.some.inj hrep
            exact hraise trivial o e
          | crashed applied => cases hrep
        cases hrep : out.reply (S.handle q r) o s.world with
        | none =>
          rw [hrep] at hp
          simp [resume] at hp
        | some rep =>
          rw [hrep] at hp
          obtain rfl : ⟨r, k rep⟩ = p := by simpa [resume] using hp
          exact hk rep (hout rep hrep)
      · have hother : s.procs q = some p := by
          rw [← hp]
          cases out.reply (S.handle pid r) o s.world with
          | none => exact (State.set_procs_of_ne _ _ _ hq).symm
          | some rep => exact (State.set_procs_of_ne _ _ _ hq).symm
        exact hs.progs q p hother
  · exact ⟨henv e _ w hmoves hs.inv hw, hs.progs⟩

/-- Every request that is over has ended as it should. -/
theorem accords_from (hprog : ∀ r, A r → (S.program r).Accords R N (post r))
    (henter : ∀ pid w, inv w → inv (S.enter pid w))
    (hcall : ∀ pid r o w, N o → inv w → inv (S.handle pid r o w).2 ∧ R o (S.handle pid r o w).1)
    (henv : ∀ e w w', E e → inv w → S.env e w = some w' → inv w') {s t : State I ε W ρ α}
    {ls : List (Label ε ρ η)} (hs : s.Accords R N post inv) (hl : ∀ l ∈ ls, l.Starts A)
    (hmoves : ∀ l ∈ ls, l.Moves E)
    (hraise : ∀ l ∈ ls, l.Raises → ∀ o e, R o (.error e)) (ht : S.run s ls = some t) :
    t.Accords R N post inv := by
  induction ls generalizing s with
  | nil =>
    obtain rfl := Option.some.inj ht
    exact hs
  | cons l ls ih =>
    obtain ⟨u, hu, hrun⟩ := run_cons ht
    have hstep := accords_step hprog henter hcall henv hs (hl l (List.mem_cons_self ..))
      (hmoves l (List.mem_cons_self ..)) (hraise l (List.mem_cons_self ..)) hu
    exact ih hstep (fun l' hl' => hl l' (List.mem_cons_of_mem l hl'))
      (fun l' hl' => hmoves l' (List.mem_cons_of_mem l hl'))
      (fun l' hl' => hraise l' (List.mem_cons_of_mem l hl')) hrun

theorem accords_idle {w : W} (hw : inv w) : (idle w : State I ε W ρ α).Accords R N post inv := by
  refine ⟨hw, ?_⟩
  intro pid p hp
  cases hp

/-- The same from the first state on, whatever the environment does. -/
theorem accords_run (hprog : ∀ r, A r → (S.program r).Accords R N (post r))
    (henter : ∀ pid w, inv w → inv (S.enter pid w))
    (hcall : ∀ pid r o w, N o → inv w → inv (S.handle pid r o w).2 ∧ R o (S.handle pid r o w).1)
    (henv : ∀ e w w', inv w → S.env e w = some w' → inv w') {w : W} (hw : inv w) {ls : List (Label ε ρ η)}
    {t : State I ε W ρ α} (hl : ∀ l ∈ ls, l.Starts A)
    (hraise : ∀ l ∈ ls, l.Raises → ∀ o e, R o (.error e)) (ht : S.run (idle w) ls = some t) :
    t.Accords R N post inv :=
  accords_from (E := fun _ => True) hprog henter hcall (fun e w w' _ => henv e w w') (accords_idle hw) hl
    (fun l _ => l.moves_any) hraise ht

/-- One process gets replies of `R'` where `C` holds of the world: there it keeps a contract of its own.
-/
theorem accords_own {R' : (o : I.Op) → Except ε (I.Resp o) → Prop} {post' : Except ε α → Prop}
    {C : W → Prop} {pid : Nat} (hprog : ∀ r, A r → (S.program r).Accords R N (post r))
    (henter : ∀ pid w, inv w → inv (S.enter pid w))
    (hcall : ∀ pid r o w, N o → inv w → inv (S.handle pid r o w).2 ∧ R o (S.handle pid r o w).1)
    (henv : ∀ e w w', E e → inv w → S.env e w = some w' → inv w')
    (hown : ∀ r o w, N o → inv w → C w → R' o (S.handle pid r o w).1) {s t : State I ε W ρ α}
    {ls : List (Label ε ρ η)} (hs : s.Accords R N post inv) (hl : ∀ l ∈ ls, l.Starts A)
    (hmoves : ∀ l ∈ ls, l.Moves E)
    (hraise : ∀ l ∈ ls, l.Raises → ∀ o e, R o (.error e)) (hnew : ∀ r, .start pid r ∉ ls)
    (hcalm : ∀ e applied, .call pid (.raised e applied) ∉ ls) (hC : S.Meets (fun s _ => C s.world) s ls)
    (hp : ∀ p, s.procs pid = some p → p.prog.Accords R' N post') (ht : S.run s ls = some t) :
    ∀ p, t.procs pid = some p → p.prog.Accords R' N post' := by
  induction ls generalizing s with
  | nil =>
    obtain rfl := Option.some.inj ht
    exact hp
  | cons l ls ih =>
    obtain ⟨u, hu, hrun⟩ := run_cons ht
    have hstep := accords_step hprog henter hcall henv hs (hl l (List.mem_cons_self ..))
      (hmoves l (List.mem_cons_self ..)) (hraise l (List.mem_cons_self ..)) hu
    refine ih hstep (fun l' hl' => hl l' (List.mem_cons_of_mem l hl'))
      (fun l' hl' => hmoves l' (List.mem_cons_of_mem l hl'))
      (fun l' hl' => hraise l' (List.mem_cons_of_mem l hl')) (fun r hr => hnew r (List.mem_cons_of_mem l hr))
      (fun e b hb => hcalm e b (List.mem_cons_of_mem l hb)) (hC.2 u hu) ?_ hrun
    intro p hpu
    by_cases hq : l.pid = some pid
    · rcases step_cases hu with ⟨q, r, rfl, -, rfl⟩ | ⟨q, out, r, o, k, rfl, hproc, rfl⟩ | ⟨e, w, rfl, -, rfl⟩
      · obtain rfl : q = pid := Option.some.inj hq
        exact absurd (List.mem_cons_self ..) (hnew r)
      · -- the process meets no exception, and is answered where `C` holds
        obtain rfl : q = pid := Option.some.inj hq
        obtain ⟨ho, hk⟩ := hp _ hproc
        cases out with
        | ok =>
          obtain rfl := Option.some.inj ((State.set_procs_self ..).symm.trans hpu)
          exact hk _ (hown r o s.world ho hs.inv hC.1)
        | raised e applied => exact absurd (List.mem_cons_self ..) (hcalm e applied)
        | crashed applied =>
          have hgone := (State.set_procs_self ..).symm.trans hpu
          cases hgone
      · cases hq
    · exact hp p ((step_procs hq hu).symm.trans hpu)

/-- Two requests, one served after the other. -/
theorem run_serve_two (r₁ r₂ : ρ) (h₁ : A r₁) (h₂ : A r₂) (w : W) :
    ∃ (ls : List (Label ε ρ η)) (t : State I ε W ρ α), (∀ l ∈ ls, l.Starts A) ∧ (∀ l ∈ ls, ¬ l.Raises) ∧
      S.run (idle w) ls = some t ∧ t.procs 1 = some ⟨r₂, .done ((S.program r₂).exec (S.handle 1 r₂)
        (S.enter 1 ((S.program r₁).exec (S.handle 0 r₁) (S.enter 0 w)).2)).1⟩ := by
  have hidle : (idle w : State I ε W ρ α).procs 0 = none := rfl
  obtain ⟨n, hn⟩ := run_serve (S := S) r₁ hidle
  let u := ((idle w : State I ε W ρ α).set ((S.program r₁).exec (S.handle 0 r₁) (S.enter 0 w)).2 0
    (some ⟨r₁, .done ((S.program r₁).exec (S.handle 0 r₁) (S.enter 0 w)).1⟩))
  have hfree : u.procs 1 = none := State.set_procs_of_ne _ _ _ (by decide)
  obtain ⟨m, hm⟩ := run_serve (S := S) r₂ hfree
  have hsteps : ∀ l ∈ (.start 0 r₁ :: List.replicate n (.call 0 .ok)) ++
    (.start 1 r₂ :: List.replicate m (.call 1 .ok)),
      (l : Label ε ρ η) = .start 0 r₁ ∨ l = .start 1 r₂ ∨ ∃ pid, l = .call pid .ok := by
    intro l hl
    simp only [List.cons_append, List.mem_cons, List.mem_append, List.mem_replicate] at hl
    rcases hl with rfl | ⟨-, rfl⟩ | rfl | ⟨-, rfl⟩
    · exact Or.inl rfl
    · exact Or.inr (Or.inr ⟨0, rfl⟩)
    · exact Or.inr (Or.inl rfl)
    · exact Or.inr (Or.inr ⟨1, rfl⟩)
  refine ⟨_, _, ?_, ?_, run_trans hn hm, State.set_procs_self _ _ _ _⟩
  · intro l hl
    rcases hsteps l hl with rfl | rfl | ⟨pid, rfl⟩
    · exact h₁
    · exact h₂
    · trivial
  · intro l hl hraise
    rcases hsteps l hl with rfl | rfl | ⟨pid, rfl⟩ <;> exact hraise

end Rule

end Service

end Calls
