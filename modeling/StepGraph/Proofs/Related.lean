import Mathlib.Data.List.Forall2

/-!
# Lists related item by item

Two lists are related if they are of one length and their items are related in pairs
(`List.Forall₂`): at every place both have an item or neither does (`forall₂_iff_getElem?`), so an
item of one list leads to a related one of the other (`exists_mem_of_forall₂`,
`exists_getElem?_of_forall₂`).
-/

set_option autoImplicit false

namespace StepGraph

variable {α β : Type} {R : α → β → Prop} {xs : List α} {ys : List β}

theorem forall₂_iff_getElem? :
    List.Forall₂ R xs ys ↔ ∀ i : Nat, Option.Rel R xs[i]? ys[i]? := by
  constructor
  · intro h
    induction h with
    | nil => exact fun _ => .none
    | cons hxy _ ih =>
      intro i
      cases i with
      | zero => exact .some hxy
      | succ i => exact ih i
  · intro h
    induction xs generalizing ys with
    | nil =>
      cases ys with
      | nil => exact .nil
      | cons y ys => cases h 0
    | cons x xs ih =>
      cases ys with
      | nil => cases h 0
      | cons y ys =>
        cases h 0 with
        | some hxy => exact .cons hxy (ih fun i => h (i + 1))

theorem exists_getElem?_of_forall₂ (h : List.Forall₂ R xs ys) {i : Nat} {y : β}
    (hy : ys[i]? = some y) : ∃ x, xs[i]? = some x ∧ R x y := by
  have hi := forall₂_iff_getElem?.1 h i
  rw [hy] at hi
  generalize xs[i]? = found at hi ⊢
  cases hi with
  | some hxy => exact ⟨_, rfl, hxy⟩

theorem exists_mem_of_forall₂ (h : List.Forall₂ R xs ys) {y : β} (hy : y ∈ ys) :
    ∃ x ∈ xs, R x y := by
  obtain ⟨i, hi⟩ := List.mem_iff_getElem?.1 hy
  obtain ⟨x, hx, hxy⟩ := exists_getElem?_of_forall₂ h hi
  exact ⟨x, List.mem_of_getElem? hx, hxy⟩

end StepGraph
