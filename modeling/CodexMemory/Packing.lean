import Mathlib

/-!
# First fit into one bin

The items of a list are taken in order, each when the room that is left holds it.
`filled` is how full the bin is afterwards: it is within its capacity exactly when it
was so before (`filled_le_iff`), and a bin over its capacity takes nothing (`firstFit_full`).
-/

namespace CodexMemory.Packing

variable {α : Type} (size : α → Nat) (capacity : Nat)

/-- The items that are taken into a bin in which `used` is used already. -/
def firstFit (used : Nat) : List α → List α
  | [] => []
  | item :: rest =>
    if used + size item ≤ capacity then item :: firstFit (used + size item) rest else firstFit used rest

/-- How full the bin is afterwards. -/
def filled (used : Nat) (items : List α) : Nat := used + ((firstFit size capacity used items).map size).sum

variable {size capacity}

theorem firstFit_cons_pos {used : Nat} {item : α} (h : used + size item ≤ capacity) (rest : List α) :
    firstFit size capacity used (item :: rest) = item :: firstFit size capacity (used + size item) rest := by
  rw [firstFit, if_pos h]

theorem firstFit_cons_neg {used : Nat} {item : α} (h : ¬ used + size item ≤ capacity) (rest : List α) :
    firstFit size capacity used (item :: rest) = firstFit size capacity used rest := by
  rw [firstFit, if_neg h]

theorem firstFit_sublist (used : Nat) (items : List α) : (firstFit size capacity used items).Sublist items := by
  induction items generalizing used with
  | nil => exact .slnil
  | cons item rest ih =>
    by_cases h : used + size item ≤ capacity
    · rw [firstFit_cons_pos h]
      exact (ih _).cons_cons item
    · rw [firstFit_cons_neg h]
      exact (ih used).cons item

theorem le_filled (used : Nat) (items : List α) : used ≤ filled size capacity used items := Nat.le_add_right _ _

theorem filled_le {used : Nat} (items : List α) (h : used ≤ capacity) : filled size capacity used items ≤ capacity := by
  induction items generalizing used with
  | nil => exact h
  | cons item rest ih =>
    by_cases hfits : used + size item ≤ capacity
    · have hrest := ih hfits
      rw [filled] at hrest ⊢
      rw [firstFit_cons_pos hfits, List.map_cons, List.sum_cons, ← Nat.add_assoc]
      exact hrest
    · rw [filled, firstFit_cons_neg hfits]
      exact ih h

/-- **The bin is within its capacity exactly when it was so before.** -/
theorem filled_le_iff (used : Nat) (items : List α) : filled size capacity used items ≤ capacity ↔ used ≤ capacity :=
  ⟨(le_filled used items).trans, filled_le items⟩

/-- A bin over its capacity takes nothing. -/
theorem firstFit_full {used : Nat} (items : List α) (h : capacity < used) : firstFit size capacity used items = [] := by
  induction items with
  | nil => rfl
  | cons item rest ih => rw [firstFit_cons_neg (by omega), ih]

end CodexMemory.Packing
