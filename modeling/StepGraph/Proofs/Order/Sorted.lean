import Mathlib.Data.List.Sort
import StepGraph.Order.Sorted

/-!
# What sorting gives

Sorting by the strict order of a linear order lists the same items (`sortBy_perm`) in that order
(`sortBy_pairwise`), so two lists are sorted alike exactly if they have the same items
(`sortBy_eq_iff`).
-/

set_option autoImplicit false

namespace StepGraph.Order

variable {α : Type}

theorem insertSorted_perm (precedes : α → α → Bool) (x : α) (sorted : List α) :
    (insertSorted precedes x sorted).Perm (x :: sorted) := by
  induction sorted with
  | nil => exact .refl _
  | cons y rest ih =>
    unfold insertSorted
    split
    · exact .refl _
    · exact (ih.cons y).trans (.swap x y rest)

theorem sortBy_perm (precedes : α → α → Bool) (items : List α) :
    (sortBy precedes items).Perm items := by
  suffices h : ∀ sorted, (items.foldl (fun sorted x => insertSorted precedes x sorted) sorted).Perm
      (items ++ sorted) by simpa [sortBy] using h []
  induction items with
  | nil => exact fun sorted => .refl sorted
  | cons x items ih =>
    intro sorted
    have h := (insertSorted_perm precedes x sorted).append_left items
    exact ((ih _).trans h).trans List.perm_middle

section
variable [LinearOrder α] {precedes : α → α → Bool} (hp : ∀ x y, precedes x y = true ↔ x < y)
include hp

theorem insertSorted_pairwise (x : α) {sorted : List α} (h : sorted.Pairwise (· ≤ ·)) :
    (insertSorted precedes x sorted).Pairwise (· ≤ ·) := by
  induction sorted with
  | nil => exact List.pairwise_singleton _ x
  | cons y rest ih =>
    obtain ⟨hy, hrest⟩ := List.pairwise_cons.1 h
    unfold insertSorted
    split
    · rename_i hxy
      have hxy := (hp x y).1 hxy
      refine List.pairwise_cons.2 ⟨fun z hz => ?_, h⟩
      rcases List.mem_cons.1 hz with rfl | hz
      · exact hxy.le
      · exact hxy.le.trans (hy z hz)
    · rename_i hxy
      have hyx : y ≤ x := not_lt.1 fun hlt => hxy ((hp x y).2 hlt)
      refine List.pairwise_cons.2 ⟨fun z hz => ?_, ih hrest⟩
      rcases List.mem_cons.1 ((insertSorted_perm precedes x rest).mem_iff.1 hz) with rfl | hz
      · exact hyx
      · exact hy z hz

theorem sortBy_pairwise (items : List α) : (sortBy precedes items).Pairwise (· ≤ ·) := by
  suffices h : ∀ sorted : List α, sorted.Pairwise (· ≤ ·) →
      (items.foldl (fun sorted x => insertSorted precedes x sorted) sorted).Pairwise (· ≤ ·) from
    h [] .nil
  induction items with
  | nil => exact fun _ h => h
  | cons x items ih => exact fun _ h => ih _ (insertSorted_pairwise hp x h)

/-- Lists are sorted alike exactly if they have the same items, each as often. -/
theorem sortBy_eq_iff {items others : List α} :
    sortBy precedes items = sortBy precedes others ↔ items.Perm others := by
  have hitems := sortBy_perm precedes items
  have hothers := sortBy_perm precedes others
  constructor
  · intro h
    exact (hitems.symm.trans (h ▸ .refl _)).trans hothers
  · intro h
    exact ((hitems.trans h).trans hothers.symm).eq_of_pairwise' (sortBy_pairwise hp items)
      (sortBy_pairwise hp others)

end

end StepGraph.Order
