import LegalRag.Calls.Generator
import LegalRag.Calls.Crash

/-!
# Which calls a program makes

`Prog.Follows R P post p`: as long as the replies are ones that `R` allows, every call of `p` is one of
`P`, and what `p` returns satisfies `post`.  `Prog.Only P p` is the case in which nothing is said about
replies and results.

* the rules follow the shape of a program: `follows_bind`, `follows_handle`, `follows_lift`,
`follows_forEach`;
* `log_of_follows`: the calls of a run are of `P`, if the world makes the replies ones of `R`;
* `exec_of_only`: what the calls of `P` leave as it is, the whole program leaves as it is;
* `seen`: what can be read off the calls of a run, with a rule for each shape of a program.
-/

namespace Calls

namespace Prog

variable {I : Iface} {Y ε α β σ W φ : Type} {P : I.Op → Prop} {R : (o : I.Op) → I.Resp o → Prop}

/-- While the replies satisfy `R`, the calls satisfy `P`, and the result satisfies `post`. -/
def Follows (R : (o : I.Op) → I.Resp o → Prop) (P : I.Op → Prop) (post : α → Prop) : Prog I ε α → Prop
  | .done (.ok a) => post a
  | .done (.error _) => True
  | .call o k => P o ∧ (∀ a, R o a → (k (.ok a)).Follows R P post) ∧ ∀ e, (k (.error e)).Follows R P post

theorem Follows.mono {p : Prog I ε α} {post post' : α → Prop} (h : p.Follows R P post)
    (hpost : ∀ a, post a → post' a) : p.Follows R P post' := by
  induction p with
  | done r =>
    cases r with
    | ok a => exact hpost a h
    | error e => trivial
  | call o k ih => exact ⟨h.1, fun a ha => ih _ (h.2.1 a ha), fun e => ih _ (h.2.2 e)⟩

/-- More calls. -/
theorem Follows.weaken {P' : I.Op → Prop} {p : Prog I ε α} {post : α → Prop} (h : p.Follows R P post)
    (hP : ∀ o, P o → P' o) : p.Follows R P' post := by
  induction p with
  | done r => cases r <;> exact h
  | call o k ih => exact ⟨hP o h.1, fun a ha => ih _ (h.2.1 a ha), fun e => ih _ (h.2.2 e)⟩

theorem follows_perform {o : I.Op} (h : P o) : (perform o : Prog I ε (I.Resp o)).Follows R P (R o) :=
  ⟨h, fun _ ha => ha, fun _ => trivial⟩

theorem follows_bind {p : Prog I ε α} {f : α → Prog I ε β} {post : β → Prop}
    (hp : p.Follows R P fun a => (f a).Follows R P post) : (p >>= f).Follows R P post := by
  induction p with
  | done r =>
    cases r with
    | ok a => exact hp
    | error e => trivial
  | call o k ih => exact ⟨hp.1, fun a ha => ih _ (hp.2.1 a ha), fun e => ih _ (hp.2.2 e)⟩

theorem follows_handle {p : Prog I ε α} {c : ε → Prog I ε α} {post : α → Prop} (hp : p.Follows R P post)
    (hc : ∀ e, (c e).Follows R P post) : (p.handle c).Follows R P post := by
  induction p with
  | done r =>
    cases r with
    | ok a => exact hp
    | error e => exact hc e
  | call o k ih => exact ⟨hp.1, fun a ha => ih _ (hp.2.1 a ha), fun e => ih _ (hp.2.2 e)⟩

/-- A condition on the calls of a generator that are not yields. -/
def own (P : I.Op → Prop) : (I.yielding Y).Op → Prop
  | .inl o => P o
  | .inr _ => True

/-- A condition on the replies to the calls of a generator that are not yields. -/
def ownReply (R : (o : I.Op) → I.Resp o → Prop) : (o : (I.yielding Y).Op) → (I.yielding Y).Resp o → Prop
  | .inl o => R o
  | .inr _ => fun _ => True

theorem follows_lift {p : Prog I ε α} {post : α → Prop} (hp : p.Follows R P post) :
    (p.lift : Prog (I.yielding Y) ε α).Follows (ownReply R) (own P) post := by
  induction p with
  | done r => cases r <;> exact hp
  | call o k ih => exact ⟨hp.1, fun a ha => ih _ (hp.2.1 a ha), fun e => ih _ (hp.2.2 e)⟩

theorem follows_emit (y : Y) {post : Unit → Prop} (hpost : post ()) :
    (emit y : Prog (I.yielding Y) ε Unit).Follows (ownReply R) (own P) post :=
  ⟨trivial, fun _ _ => hpost, fun _ => trivial⟩

/-- A loop makes the calls of its generator and of its body. -/
theorem follows_forEach {body : Y → σ → Prog I ε (ForInStep σ)}
    (hb : ∀ y s, (body y s).Follows R P fun _ => True) {g : Prog (I.yielding Y) ε Unit}
    (hg : g.Follows (ownReply R) (own P) fun _ => True) (s : σ) :
    (forEach body g s).Follows R P fun _ => True := by
  induction g generalizing s with
  | done r => cases r <;> trivial
  | call o k ih =>
    cases o with
    | inl o => exact ⟨hg.1, fun a ha => ih _ (hg.2.1 a ha) s, fun e => ih _ (hg.2.2 e) s⟩
    | inr y =>
      refine follows_bind ((hb y s).mono fun r _ => ?_)
      cases r with
      | done s' => trivial
      | yield s' => exact ih _ (hg.2.1 () trivial) s'

/-- A condition on the calls of a generator and one on what it yields. -/
def ownYields (P : I.Op → Prop) (E : Y → Prop) : (I.yielding Y).Op → Prop
  | .inl o => P o
  | .inr y => E y

theorem follows_lift_yields (E : Y → Prop) {p : Prog I ε α} {post : α → Prop} (hp : p.Follows R P post) :
    (p.lift : Prog (I.yielding Y) ε α).Follows (ownReply R) (ownYields P E) post := by
  induction p with
  | done r => cases r <;> exact hp
  | call o k ih => exact ⟨hp.1, fun a ha => ih _ (hp.2.1 a ha), fun e => ih _ (hp.2.2 e)⟩

theorem follows_emit_yields {E : Y → Prop} {y : Y} (hy : E y) {post : Unit → Prop} (hpost : post ()) :
    (emit y : Prog (I.yielding Y) ε Unit).Follows (ownReply R) (ownYields P E) post :=
  ⟨hy, fun _ _ => hpost, fun _ => trivial⟩

/-- What every round keeps of the state, the loop keeps, if what is yielded is of `E`. -/
theorem follows_forEach_yields {E : Y → Prop} {J : σ → Prop} {body : Y → σ → Prog I ε (ForInStep σ)}
    (hb : ∀ y s, E y → J s → (body y s).Follows R P fun r => ∀ s', r = .yield s' → J s')
    {g : Prog (I.yielding Y) ε Unit} (hg : g.Follows (ownReply R) (ownYields P E) fun _ => True) {s : σ}
    (hs : J s) : (forEach body g s).Follows R P fun r => ∀ s', r = .yield s' → J s' := by
  induction g generalizing s with
  | done r =>
    cases r with
    | ok a =>
      intro s' h
      cases h
      exact hs
    | error e => trivial
  | call o k ih =>
    cases o with
    | inl o => exact ⟨hg.1, fun a ha => ih _ (hg.2.1 a ha) hs, fun e => ih _ (hg.2.2 e) hs⟩
    | inr y =>
      refine follows_bind ((hb y s hg.1 hs).mono fun r hr => ?_)
      cases r with
      | done s' =>
        intro s'' h
        cases h
      | yield s' => exact ih _ (hg.2.1 () trivial) (hr s' rfl)

/-- The result of a run satisfies `post`, if the replies are ones of `R`. -/
theorem post_of_follows {h : Handler I ε W} (hreply : ∀ o w a, (h o w).1 = .ok a → R o a) {p : Prog I ε α}
    {post : α → Prop} (hp : p.Follows R P post) {w : W} {a : α} (ha : (p.exec h w).1 = .ok a) : post a := by
  induction p generalizing w with
  | done r =>
    obtain rfl : r = .ok a := ha
    exact hp
  | call o k ih =>
    rw [exec_call] at ha
    cases hr : (h o w).1 with
    | ok b => exact ih _ (hp.2.1 b (hreply o w b hr)) (hr ▸ ha)
    | error e => exact ih _ (hp.2.2 e) (hr ▸ ha)

/-- The calls of a run are of `P`, if what makes the replies ones of `R` is kept by the calls of `P`. -/
theorem log_of_follows {h : Handler I ε W} {inv : W → Prop} (hinv : ∀ o w, P o → inv w → inv (h o w).2)
    (hreply : ∀ o w a, inv w → (h o w).1 = .ok a → R o a) {p : Prog I ε α} {post : α → Prop}
    (hp : p.Follows R P post) {w : W} (hw : inv w) : ∀ e ∈ p.log h w, P e.1 := by
  induction p generalizing w with
  | done r => simp
  | call o k ih =>
    intro e he
    rw [log_call, List.mem_cons] at he
    rcases he with rfl | he
    · exact hp.1
    · cases hr : (h o w).1 with
      | ok a => exact ih _ (hp.2.1 a (hreply o w a hw hr)) (hinv o w hp.1 hw) e (hr ▸ he)
      | error x => exact ih _ (hp.2.2 x) (hinv o w hp.1 hw) e (hr ▸ he)

/-! ### What is seen of a run -/

/-- What `f` reads off the calls of a run, each with the world right after it. -/
def seen (f : I.Op → W → Option φ) (h : Handler I ε W) (p : Prog I ε α) (w : W) : List φ :=
  (p.log h w).filterMap fun e => f e.1 e.2

theorem seen_done (f : I.Op → W → Option φ) (h : Handler I ε W) (r : Except ε α) (w : W) :
    (.done r : Prog I ε α).seen f h w = [] := rfl

theorem seen_call (f : I.Op → W → Option φ) (h : Handler I ε W) (o : I.Op)
    (k : Except ε (I.Resp o) → Prog I ε α) (w : W) :
    (.call o k : Prog I ε α).seen f h w = (f o (h o w).2).toList ++ (k (h o w).1).seen f h (h o w).2 := by
  rw [seen, log_call, List.filterMap_cons]
  cases f o (h o w).2 <;> rfl

theorem seen_bind (f : I.Op → W → Option φ) (h : Handler I ε W) (p : Prog I ε α)
    (g : α → Prog I ε β) (w : W) :
    (p >>= g).seen f h w = p.seen f h w ++ (cont g (p.exec h w).1).seen f h (p.exec h w).2 := by
  rw [seen, log_bind, List.filterMap_append]
  rfl

private theorem seen_handle (f : I.Op → W → Option φ) (h : Handler I ε W) (p : Prog I ε α)
    (c : ε → Prog I ε α) (w : W) :
    (p.handle c).seen f h w =
      p.seen f h w ++ ((.done (p.exec h w).1 : Prog I ε α).handle c).seen f h (p.exec h w).2 := by
  rw [seen, log_handle, List.filterMap_append]
  rfl

/-! ### Nothing said about the replies -/

/-- Every call of the program is one of `P`. -/
def Only (P : I.Op → Prop) (p : Prog I ε α) : Prop := p.Follows (fun _ _ => True) P fun _ => True

theorem only_done (r : Except ε α) : (.done r : Prog I ε α).Only P := by cases r <;> trivial

theorem only_perform {o : I.Op} (h : P o) : (perform o : Prog I ε (I.Resp o)).Only P := follows_perform h

theorem only_bind {p : Prog I ε α} {f : α → Prog I ε β} (hp : p.Only P) (hf : ∀ a, (f a).Only P) :
    (p >>= f).Only P := follows_bind (Follows.mono hp fun a _ => hf a)

theorem only_handle {p : Prog I ε α} {c : ε → Prog I ε α} (hp : p.Only P) (hc : ∀ e, (c e).Only P) :
    (p.handle c).Only P := follows_handle hp hc

theorem Only.follows {p : Prog I ε α} (hp : p.Only P) : p.Follows R P fun _ => True := by
  induction p with
  | done r => cases r <;> trivial
  | call o k ih => exact ⟨hp.1, fun a _ => ih _ (hp.2.1 a trivial), fun e => ih _ (hp.2.2 e)⟩

theorem only_call {o : I.Op} {k : Except ε (I.Resp o) → Prog I ε α} (h : (.call o k : Prog I ε α).Only P)
    (r : Except ε (I.Resp o)) : (k r).Only P := by
  cases r with
  | ok a => exact h.2.1 a trivial
  | error e => exact h.2.2 e

/-- What no call of `P` changes, the program does not change. -/
theorem exec_of_only {h : Handler I ε W} {f : W → φ} (hf : ∀ o w, P o → f (h o w).2 = f w)
    {p : Prog I ε α} (hp : p.Only P) (w : W) : f (p.exec h w).2 = f w := by
  induction p generalizing w with
  | done r => rfl
  | call o k ih => rw [exec_call, ih _ (only_call hp _), hf o w hp.1]

/-- Calls of which `f` reads nothing. -/
theorem seen_of_only {f : I.Op → W → Option φ} (hf : ∀ o w, P o → f o w = none) {p : Prog I ε α}
    (hp : p.Only P) (h : Handler I ε W) (w : W) : p.seen f h w = [] := by
  induction p generalizing w with
  | done r => rfl
  | call o k ih => rw [seen_call, hf o _ hp.1, ih _ (only_call hp _)]; rfl

/-- An exception handler of whose calls `f` reads nothing. -/
theorem seen_handle_of_only {f : I.Op → W → Option φ} (hf : ∀ o w, P o → f o w = none)
    {c : ε → Prog I ε α} (hc : ∀ e, (c e).Only P) (h : Handler I ε W) (p : Prog I ε α) (w : W) :
    (p.handle c).seen f h w = p.seen f h w := by
  rw [seen_handle, seen_of_only hf (only_handle (only_done _) hc), List.append_nil]

/-- How a world is related to the one after any call, it is related to the one after a program. -/
theorem rel_exec {h : Handler I ε W} {R : W → W → Prop} (hrefl : ∀ w, R w w)
    (htrans : ∀ u v w, R u v → R v w → R u w) (hstep : ∀ o w, R w (h o w).2) (p : Prog I ε α) (w : W) :
    R w (p.exec h w).2 := by
  induction p generalizing w with
  | done r => exact hrefl w
  | call o k ih => exact htrans _ _ _ (hstep o w) (ih _ _)

/-- A quantity that no call lets decrease does not decrease over a program. -/
theorem le_exec {h : Handler I ε W} {f : W → Nat} (hf : ∀ o w, f w ≤ f (h o w).2) (p : Prog I ε α) (w : W) :
    f w ≤ f (p.exec h w).2 :=
  rel_exec (R := fun w w' => f w ≤ f w') (fun _ => Nat.le_refl _) (fun _ _ _ => Nat.le_trans) hf p w

end Prog

end Calls
