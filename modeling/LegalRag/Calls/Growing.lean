import LegalRag.Calls.Contracts
import LegalRag.Calls.Watch
import Mathlib.Order.Basic

/-!
# Contracts in a world that grows

The replies of a world may be bounded by what it shows, and later worlds may show more.  A program that
keeps its contract under every bound returns, in every state of a run, what fits the bound of that state
(`sees_step`, `State.Sees.result`), although it was answered in earlier ones.
-/

namespace Calls

namespace Service

variable {I : Iface} {ε W ρ η α κ : Type} [Preorder κ] {S : Service I ε W ρ η α}
  {R : κ → (o : I.Op) → Except ε (I.Resp o) → Prop} {post : ρ → κ → Except ε α → Prop} {shown : W → κ}
  {s s' : State I ε W ρ α} {l : Label ε ρ η}

/-- What is left of each process keeps its contract under every bound on what the world shows. -/
def State.Sees (R : κ → (o : I.Op) → Except ε (I.Resp o) → Prop) (post : ρ → κ → Except ε α → Prop)
    (shown : W → κ) (s : State I ε W ρ α) : Prop :=
  ∀ pid p, s.procs pid = some p → ∀ K, shown s.world ≤ K → p.prog.Accords (R K) (fun _ => True) (post p.req K)

/-- A process that has ended has a result that fits the world as it is. -/
theorem State.Sees.result (hs : s.Sees R post shown) {pid : Nat} {r : ρ} {x : Except ε α}
    (hp : s.procs pid = some ⟨r, .done x⟩) : post r (shown s.world) x :=
  hs pid _ hp _ le_rfl

theorem sees_step (hprog : ∀ r K, (S.program r).Accords (R K) (fun _ => True) (post r K))
    (hreply : ∀ pid r o K, shown s.world ≤ K → R K o (S.handle pid r o s.world).1)
    (hraise : ∀ K o e, R K o (.error e)) (hgrows : shown s.world ≤ shown s'.world)
    (hs : s.Sees R post shown) (h : S.step s l = some s') : s'.Sees R post shown := by
  intro q p hp K hK
  have hbefore : shown s.world ≤ K := hgrows.trans hK
  by_cases hsame : s.procs q = some p
  · exact hs q p hsame K hbefore
  · rcases proc_turns h hp hsame with ⟨-, hstart⟩ | ⟨out, o, k, rep, -, hproc, hrep, hk⟩
    · rw [hstart]
      exact hprog p.req K
    · -- the process goes on with a reply that the earlier world gave
      rw [hk]
      refine (hs q _ hproc K hbefore).2 rep ?_
      cases out with
      | ok =>
        obtain rfl := Option.some.inj hrep
        exact hreply q p.req o K hbefore
      | raised e applied =>
        obtain rfl := Option.some.inj hrep
        exact hraise K o e
      | crashed applied => cases hrep

end Service

end Calls
