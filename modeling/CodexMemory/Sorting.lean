import Mathlib.Data.List.Sort
import Mathlib.Data.Prod.Lex

/-!
# Sorting by a key

`sorted(items, key=…)` on a list.  Where no two items have one key, the result
depends on the items alone and not on the order in which they come
(`sortBy_eq_of_perm`); where the list falls into a front and a back by the key,
the two are sorted on their own (`sortBy_append`).
-/

namespace CodexMemory

variable {α β κ : Type} [LinearOrder κ]

/-- `sorted(l, key=key)` -/
def sortBy (key : α → κ) (l : List α) : List α := l.insertionSort fun a b => key a ≤ key b

theorem sortBy_perm (key : α → κ) (l : List α) : (sortBy key l).Perm l := List.perm_insertionSort _ l

@[simp] theorem mem_sortBy {key : α → κ} {l : List α} {a : α} : a ∈ sortBy key l ↔ a ∈ l :=
  (sortBy_perm key l).mem_iff

@[simp] theorem length_sortBy (key : α → κ) (l : List α) : (sortBy key l).length = l.length :=
  (sortBy_perm key l).length_eq

theorem sortBy_pairwise (key : α → κ) (l : List α) : (sortBy key l).Pairwise fun a b => key a ≤ key b := by
  have : Std.Total (α := α) fun a b => key a ≤ key b := ⟨fun a b => le_total (key a) (key b)⟩
  have : IsTrans α fun a b => key a ≤ key b := ⟨fun _ _ _ => le_trans⟩
  exact List.pairwise_insertionSort _ l

/-- A sorted rearrangement of a list without equal keys is its sorting. -/
theorem eq_sortBy {key : α → κ} {l l' : List α} (hperm : l'.Perm l) (hsorted : l'.Pairwise fun a b => key a ≤ key b)
    (hinj : ∀ a ∈ l, ∀ b ∈ l, key a = key b → a = b) : l' = sortBy key l := by
  refine (hperm.trans (sortBy_perm key l).symm).eq_of_pairwise ?_ hsorted (sortBy_pairwise key l)
  intro a b ha hb hab hba
  exact hinj a (hperm.mem_iff.mp ha) b (mem_sortBy.mp hb) (le_antisymm hab hba)

/-- **The order in which the items come does not matter.** -/
theorem sortBy_eq_of_perm {key : α → κ} {l l' : List α} (hperm : l.Perm l')
    (hinj : ∀ a ∈ l', ∀ b ∈ l', key a = key b → a = b) : sortBy key l = sortBy key l' :=
  eq_sortBy ((sortBy_perm key l).trans hperm) (sortBy_pairwise key l) hinj

/-- **A front and a back** are sorted on their own. -/
theorem sortBy_append {key : α → κ} {front back : List α} (h : ∀ a ∈ front, ∀ b ∈ back, key a ≤ key b)
    (hinj : ∀ a ∈ front ++ back, ∀ b ∈ front ++ back, key a = key b → a = b) :
    sortBy key (front ++ back) = sortBy key front ++ sortBy key back := by
  symm
  refine eq_sortBy ((sortBy_perm key front).append (sortBy_perm key back)) ?_ hinj
  rw [List.pairwise_append]
  refine ⟨sortBy_pairwise key front, sortBy_pairwise key back, ?_⟩
  intro a ha b hb
  exact h a (mem_sortBy.mp ha) b (mem_sortBy.mp hb)

theorem sortBy_congr {key key' : α → κ} {l : List α} (h : ∀ a ∈ l, key a = key' a) : sortBy key l = sortBy key' l := by
  have hmap := List.map_insertionSort (r := fun a b => key a ≤ key b) (s := fun a b => key' a ≤ key' b) id l
    (fun a ha b hb => by rw [id_eq, id_eq, h a ha, h b hb])
  rwa [List.map_id, List.map_id] at hmap

end CodexMemory
