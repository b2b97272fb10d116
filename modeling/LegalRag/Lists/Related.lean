import Mathlib.Data.List.Forall2

/-!
# Lists that are related element by element

`List.Forall₂ R xs ys`: the lists have one length, and `R` holds of any two elements in one place.

* `exists_right`, `exists_left`: an element of one list has its partner in the other;
* `exists_at`, `forall₂_set`: one element of the right list is read, or replaced;
* `map_eq_map`: what related elements agree on, the lists agree on.
-/

namespace Related

variable {α β γ : Type} {R : α → β → Prop} {xs : List α} {ys : List β}

theorem exists_right (h : List.Forall₂ R xs ys) {a : α} (ha : a ∈ xs) : ∃ b ∈ ys, R a b := by
  induction h with
  | nil => cases ha
  | cons hab _ ih =>
    rcases List.mem_cons.mp ha with rfl | ha
    · exact ⟨_, List.mem_cons_self .., hab⟩
    · obtain ⟨b, hb, hrel⟩ := ih ha
      exact ⟨b, List.mem_cons_of_mem _ hb, hrel⟩

theorem exists_left (h : List.Forall₂ R xs ys) {b : β} (hb : b ∈ ys) : ∃ a ∈ xs, R a b := by
  have hflip : List.Forall₂ (fun b a => R a b) ys xs := h.flip
  exact exists_right hflip hb

theorem exists_at (h : List.Forall₂ R xs ys) {i : Nat} {b : β} (hi : ys[i]? = some b) : ∃ a ∈ xs, R a b :=
  exists_left h (List.mem_of_getElem? hi)

theorem forall₂_set (h : List.Forall₂ R xs ys) {i : Nat} {b b' : β} (hi : ys[i]? = some b)
    (hstep : ∀ a, R a b → R a b') : List.Forall₂ R xs (ys.set i b') := by
  induction h generalizing i with
  | nil => cases hi
  | cons hab hrest ih =>
    cases i with
    | zero =>
      obtain rfl := Option.some.inj hi
      exact List.Forall₂.cons (hstep _ hab) hrest
    | succ i => exact List.Forall₂.cons hab (ih hi)

theorem forall₂_trans {S : β → γ → Prop} {T : α → γ → Prop} (hT : ∀ a b c, R a b → S b c → T a c)
    {zs : List γ} (h : List.Forall₂ R xs ys) (h' : List.Forall₂ S ys zs) : List.Forall₂ T xs zs := by
  induction h generalizing zs with
  | nil =>
    cases h'
    exact List.Forall₂.nil
  | cons hab _ ih =>
    cases h' with
    | cons hbc h' => exact List.Forall₂.cons (hT _ _ _ hab hbc) (ih h')

theorem map_eq_map {f : α → γ} {g : β → γ} (hfg : ∀ a b, R a b → f a = g b)
    (h : List.Forall₂ R xs ys) : xs.map f = ys.map g := by
  induction h with
  | nil => rfl
  | cons hab _ ih => rw [List.map_cons, List.map_cons, hfg _ _ hab, ih]

end Related
