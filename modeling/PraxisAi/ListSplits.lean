import Mathlib.Data.List.Basic

/-! # Places in a list

A property of every element together with what stands before and behind it, as a check of finitely
many positions and element by element from the left. -/
namespace ListSplits

open List

variable {α : Type*} {l : List α} {a : α} {P : List α → α → List α → Prop}

def AtEach (P : List α → α → List α → Prop) (l : List α) : Prop :=
  ∀ before a after, l = before ++ a :: after → P before a after

theorem atEach_iff : AtEach P l ↔
    ∀ k < l.length, ∀ a ∈ l[k]?, P (l.take k) a (l.drop (k + 1)) := by
  constructor
  · intro h k hk a ha
    apply h (l.take k) a (l.drop (k + 1))
    obtain ⟨_, hget⟩ := List.getElem?_eq_some_iff.mp ha
    rw [← hget, ← drop_eq_getElem_cons hk, take_append_drop]
  · rintro h before a after rfl
    have hget : (before ++ a :: after)[before.length]? = some a := by simp
    have hplace := h before.length (by simp) a hget
    have hdrop : (before ++ a :: after).drop (before.length + 1) = after := by simp
    rwa [take_left, hdrop] at hplace

instance [∀ before a after, Decidable (P before a after)] : Decidable (AtEach P l) :=
  decidable_of_iff' _ atEach_iff

theorem snoc_split {log before after : List α} {e : α}
    (h : log ++ [a] = before ++ e :: after) :
    (before = log ∧ e = a ∧ after = []) ∨
      ∃ rest, after = rest ++ [a] ∧ log = before ++ e :: rest := by
  rcases eq_nil_or_concat after with rfl | ⟨rest, last, rfl⟩
  · obtain ⟨rfl, hlast⟩ := append_inj' h rfl
    exact .inl ⟨rfl, (List.cons.inj hlast).1.symm, rfl⟩
  · rw [concat_eq_append, ← cons_append, ← append_assoc] at h
    obtain ⟨hlog, hlast⟩ := append_inj' h rfl
    obtain rfl := (List.cons.inj hlast).1
    exact .inr ⟨rest, concat_eq_append, hlog⟩

end ListSplits
