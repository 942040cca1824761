import Mathlib.Algebra.BigOperators.Group.List.Basic
import Mathlib.Algebra.Order.BigOperators.Group.List
import Mathlib.Algebra.GroupWithZero.Nat
import Mathlib.Algebra.Order.Group.Nat
import Mathlib.Data.List.Nodup

/-! # Sums over entries, grouped by an index

A list of entries, each with an amount and the index of a group. The groups' totals add up to
the total over the entries of those groups, and changing one entry changes one total. -/
namespace IndexedSums

open List

variable {α κ : Type*} [DecidableEq κ]

def total (amount : α → ℕ) (p : α → Bool) (entries : List α) : ℕ :=
  ((entries.filter p).map amount).sum

variable {amount : α → ℕ} {p q : α → Bool} {entries : List α}

@[simp] theorem total_nil (amount : α → ℕ) (p : α → Bool) : total amount p [] = 0 := rfl

theorem total_cons (amount : α → ℕ) (p : α → Bool) (e : α) (entries : List α) :
    total amount p (e :: entries) = (if p e then amount e else 0) + total amount p entries := by
  by_cases h : p e = true <;> simp [total, h]

theorem total_append (amount : α → ℕ) (p : α → Bool) (l l' : List α) :
    total amount p (l ++ l') = total amount p l + total amount p l' := by
  simp [total]

theorem total_mono (h : ∀ e ∈ entries, p e = true → q e = true) :
    total amount p entries ≤ total amount q entries := by
  induction entries with
  | nil => exact le_rfl
  | cons e entries ih =>
    have hrest := ih fun e' he' => h e' (mem_cons_of_mem _ he')
    have hhead := h e mem_cons_self
    rw [total_cons, total_cons]
    split
    · next hp =>
      rw [if_pos (hhead hp)]
      omega
    · omega

theorem total_congr (h : ∀ e ∈ entries, p e = q e) :
    total amount p entries = total amount q entries :=
  congrArg (fun l => (l.map amount).sum) (filter_congr h)

theorem total_split (amount : α → ℕ) (p q : α → Bool) (entries : List α) :
    total amount p entries =
      total amount (fun e => p e && q e) entries + total amount (fun e => p e && !q e) entries := by
  induction entries with
  | nil => rfl
  | cons e entries ih =>
    rw [total_cons, total_cons, total_cons, ih]
    cases p e <;> cases q e <;> simp <;> omega

theorem sum_ite_mem {groups : List κ} (h : groups.Nodup) (k₀ : κ) (a : ℕ) :
    (groups.map fun k => if k₀ = k then a else 0).sum = if k₀ ∈ groups then a else 0 := by
  induction groups with
  | nil => rfl
  | cons k groups ih =>
    obtain ⟨hnew, hrest⟩ := nodup_cons.mp h
    rw [map_cons, sum_cons, ih hrest]
    by_cases hk : k₀ = k
    · subst hk
      simp [hnew]
    · simp [hk]

theorem sum_total (index : α → κ) {groups : List κ} (h : groups.Nodup) :
    (groups.map fun k => total amount (fun e => index e = k) entries).sum =
      total amount (fun e => index e ∈ groups) entries := by
  induction entries with
  | nil => simp
  | cons e entries ih =>
    have hsplit : (groups.map fun k => total amount (fun e => index e = k) (e :: entries)).sum =
        (groups.map fun k => if index e = k then amount e else 0).sum +
          (groups.map fun k => total amount (fun e => index e = k) entries).sum := by
      rw [← sum_map_add]
      simp only [total_cons, decide_eq_true_eq]
    rw [hsplit, sum_ite_mem h, ih, total_cons]
    simp

theorem total_map {f : α → α} (hp : ∀ e ∈ entries, p (f e) = p e) :
    total amount p (entries.map f) = total (fun e => amount (f e)) p entries := by
  induction entries with
  | nil => rfl
  | cons e entries ih =>
    rw [map_cons, total_cons, total_cons, hp e mem_cons_self,
      ih fun e' he' => hp e' (mem_cons_of_mem _ he')]

theorem total_amount_congr {amount' : α → ℕ} (h : ∀ e ∈ entries, amount e = amount' e) :
    total amount p entries = total amount' p entries := by
  simp only [total]
  refine congrArg List.sum (map_congr_left fun e he => h e (mem_of_mem_filter he))

/-- One entry's amount changes, and with it the totals that count the entry. -/
theorem total_change {amount' : α → ℕ} {e₀ : α} (hmem : e₀ ∈ entries) (hnodup : entries.Nodup)
    (hother : ∀ e ∈ entries, e ≠ e₀ → amount' e = amount e) :
    total amount' p entries + (if p e₀ then amount e₀ else 0) =
      total amount p entries + (if p e₀ then amount' e₀ else 0) := by
  induction entries with
  | nil => cases hmem
  | cons e entries ih =>
    obtain ⟨hnew, hrest⟩ := nodup_cons.mp hnodup
    rw [total_cons, total_cons]
    rcases mem_cons.mp hmem with rfl | hmem
    · have hsame : total amount' p entries = total amount p entries :=
        total_amount_congr fun e' he' => hother e' (mem_cons_of_mem _ he') (by
          rintro rfl
          exact hnew he')
      omega
    · have hhead : amount' e = amount e := hother e mem_cons_self (by
        rintro rfl
        exact hnew hmem)
      have hchange := ih hmem hrest fun e' he' => hother e' (mem_cons_of_mem _ he')
      rw [hhead]
      omega

end IndexedSums
