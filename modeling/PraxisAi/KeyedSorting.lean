import Mathlib.Data.List.Sort
import Mathlib.Order.Defs.LinearOrder

/-! # Sorting by a key

A list whose elements have different keys has one sorted order, however it was written. -/
namespace KeyedSorting

variable {α κ : Type*} [LinearOrder κ] {key : α → κ} {le : α → α → Bool} {l l' : List α}

theorem pairwise_mergeSort (hle : ∀ a b, le a b = true ↔ key a ≤ key b) (l : List α) :
    (l.mergeSort le).Pairwise fun a b => key a ≤ key b := by
  have hsorted : (l.mergeSort le).Pairwise fun a b => le a b = true := by
    apply List.pairwise_mergeSort
    · intro a b c hab hbc
      exact (hle a c).mpr (((hle a b).mp hab).trans ((hle b c).mp hbc))
    · intro a b
      rw [Bool.or_eq_true]
      exact (le_total (key a) (key b)).imp (hle a b).mpr (hle b a).mpr
  exact hsorted.imp (hle _ _).mp

theorem mergeSort_eq (hle : ∀ a b, le a b = true ↔ key a ≤ key b)
    (hkeys : ∀ a ∈ l, ∀ b ∈ l, key a = key b → a = b) (hperm : l'.Perm l)
    (hsorted : l'.Pairwise fun a b => key a ≤ key b) : l.mergeSort le = l' := by
  have hmerged := List.mergeSort_perm l le
  refine (hmerged.trans hperm.symm).eq_of_pairwise ?_ (pairwise_mergeSort hle l) hsorted
  intro a b ha hb hab hba
  exact hkeys a (hmerged.subset ha) b (hperm.subset hb) (le_antisymm hab hba)

theorem mergeSort_perm_eq (hle : ∀ a b, le a b = true ↔ key a ≤ key b)
    (hkeys : ∀ a ∈ l, ∀ b ∈ l, key a = key b → a = b) (hperm : l'.Perm l) :
    l'.mergeSort le = l.mergeSort le :=
  (mergeSort_eq hle hkeys ((List.mergeSort_perm l' le).trans hperm)
    (pairwise_mergeSort hle l')).symm

end KeyedSorting
