import Mathlib.Algebra.Order.BigOperators.Group.List
import Mathlib.Algebra.GroupWithZero.Nat
import Mathlib.Algebra.Order.Group.Nat
import Mathlib.Algebra.BigOperators.Group.List.Basic

/-! # Saturating machine arithmetic on natural numbers

Addition that stops at a bound, and the fact every user of it needs: folding it
over a list is the exact sum cut off at the bound, whatever the order. -/
namespace SaturatingArithmetic

def u64Max : ℕ := 2 ^ 64 - 1

def satAdd (bound a b : ℕ) : ℕ := min (a + b) bound

theorem satAdd_min (bound a b : ℕ) :
    satAdd bound (min a bound) (min b bound) = min (a + b) bound := by
  unfold satAdd
  omega

theorem satAdd_min_left (bound a b : ℕ) : satAdd bound (min a bound) b = min (a + b) bound := by
  unfold satAdd
  omega

theorem foldl_satAdd {α : Type*} (bound : ℕ) (f : α → ℕ) (l : List α) :
    l.foldl (fun sum a => satAdd bound sum (f a)) 0 = min (l.map f).sum bound := by
  have general : ∀ acc, l.foldl (fun sum a => satAdd bound sum (f a)) (min acc bound) =
      min (acc + (l.map f).sum) bound := by
    induction l with
    | nil => simp
    | cons a l ih =>
      intro acc
      simp only [List.foldl_cons, satAdd_min_left, ih, List.map_cons, List.sum_cons, add_assoc]
  simpa using general 0

theorem sum_filter_le {α : Type*} (f : α → ℕ) (p : α → Bool) (l : List α) :
    ((l.filter p).map f).sum ≤ (l.map f).sum :=
  (List.filter_sublist.map f).sum_le_sum (fun _ _ => Nat.zero_le _)

theorem sum_filter_mono {α : Type*} (f : α → ℕ) {p q : α → Bool} (l : List α)
    (h : ∀ a, p a = true → q a = true) : ((l.filter p).map f).sum ≤ ((l.filter q).map f).sum :=
  ((List.monotone_filter_right l h).map f).sum_le_sum (fun _ _ => Nat.zero_le _)

end SaturatingArithmetic
