import Mathlib.Order.Basic
import Mathlib.Order.Lattice
import Mathlib.Data.Option.Basic

/-! # Keys that expire, and watching them

One key of a store whose entries may carry an expiry. From the instant of its expiry on an
entry is not there. A watched read remembers how often the key had been written; if neither a
write nor an expiry has come since, what was read is still what the key holds. -/
namespace ExpiringKeys

variable {ν : Type*}

structure Slot (ν : Type*) where
  value : ν
  expiresAt : Option ℕ
  deriving DecidableEq

def Slot.alive (t : ℕ) (s : Slot ν) : Bool :=
  match s.expiresAt with
  | none => true
  | some e => decide (t < e)

def visible (t : ℕ) (slot : Option (Slot ν)) : Option (Slot ν) := slot.filter (Slot.alive t)

/-- A write that keeps the expiry of the entry it finds, and gives a new entry none. -/
def rewrite (t : ℕ) (value : ν) (slot : Option (Slot ν)) : Slot ν :=
  ⟨value, (visible t slot).bind Slot.expiresAt⟩

def expireNx (t ttl : ℕ) (s : Slot ν) : Slot ν :=
  match s.expiresAt with
  | none => { s with expiresAt := some (t + ttl) }
  | some _ => s

/-- Set an expiry if it is later than the present one; no expiry counts as the latest. -/
def expireGt (t ttl : ℕ) (s : Slot ν) : Slot ν :=
  match s.expiresAt with
  | none => s
  | some e => if e < t + ttl then { s with expiresAt := some (t + ttl) } else s

/-- Both in turn: the expiry is only ever moved back. -/
def extend (t ttl : ℕ) (s : Slot ν) : Slot ν := expireGt t ttl (expireNx t ttl s)

theorem extend_eq (t ttl : ℕ) (s : Slot ν) :
    extend t ttl s = ⟨s.value, some (max (s.expiresAt.getD 0) (t + ttl))⟩ := by
  obtain ⟨value, _ | e⟩ := s
  · simp [extend, expireNx, expireGt]
  · simp only [extend, expireNx, expireGt, Option.getD_some]
    split
    · next h => rw [max_eq_right h.le]
    · next h => rw [max_eq_left (not_lt.mp h)]

theorem alive_iff {t : ℕ} {s : Slot ν} : s.alive t = true ↔ ∀ e ∈ s.expiresAt, t < e := by
  obtain ⟨value, _ | e⟩ := s <;> simp [Slot.alive]

theorem alive_earlier {t u : ℕ} {s : Slot ν} (h : t ≤ u) (hu : s.alive u = true) :
    s.alive t = true := by
  rw [alive_iff] at *
  exact fun e he => h.trans_lt (hu e he)

theorem visible_eq_some {t : ℕ} {slot : Option (Slot ν)} {s : Slot ν} :
    visible t slot = some s ↔ slot = some s ∧ s.alive t = true := by
  simp [visible, Option.filter_eq_some_iff]

theorem visible_of_alive {t : ℕ} {s : Slot ν} (h : s.alive t = true) :
    visible t (some s) = some s := visible_eq_some.mpr ⟨rfl, h⟩

@[simp] theorem visible_none (t : ℕ) : visible t (none : Option (Slot ν)) = none := rfl

structure Cell (ν : Type*) where
  slot : Option (Slot ν)
  version : ℕ

def Cell.empty : Cell ν := ⟨none, 0⟩

def Cell.write (slot : Option (Slot ν)) (cell : Cell ν) : Cell ν := ⟨slot, cell.version + 1⟩

@[simp] theorem write_slot (slot : Option (Slot ν)) (cell : Cell ν) :
    (cell.write slot).slot = slot := rfl

structure Cell.Later (seen cell : Cell ν) : Prop where
  le : seen.version ≤ cell.version
  same : seen.version = cell.version → seen.slot = cell.slot

theorem Cell.Later.refl (cell : Cell ν) : cell.Later cell := ⟨le_rfl, fun _ => rfl⟩

theorem Cell.Later.write {seen cell : Cell ν} (h : seen.Later cell) (slot : Option (Slot ν)) :
    seen.Later (cell.write slot) := by
  constructor
  · exact h.le.trans (Nat.le_succ _)
  · intro heq
    exact absurd (heq ▸ h.le) (Nat.not_succ_le_self _)

theorem Cell.Later.update {κ : Type*} [DecidableEq κ] {cells : κ → Cell ν} {seen : Cell ν} {k : κ}
    (h : seen.Later (cells k)) (k₀ : κ) (slot : Option (Slot ν)) :
    seen.Later (Function.update cells k₀ ((cells k₀).write slot) k) := by
  by_cases hk : k = k₀
  · subst hk
    rw [Function.update_self]
    exact h.write slot
  · rwa [Function.update_of_ne hk]

theorem Cell.Later.update_update {κ κ' : Type*} [DecidableEq κ] [DecidableEq κ']
    {cells : κ → κ' → Cell ν} {seen : Cell ν} {k : κ} {i : κ'} (h : seen.Later (cells k i))
    (k₀ : κ) (i₀ : κ') (slot : Option (Slot ν)) :
    seen.Later (Function.update cells k₀
      (Function.update (cells k₀) i₀ ((cells k₀ i₀).write slot)) k i) := by
  by_cases hk : k = k₀
  · subst hk
    rw [Function.update_self]
    exact h.update i₀ slot
  · rwa [Function.update_of_ne hk]

/-- Nothing has been written to the key since it was seen, and what was there has not expired:
what a transaction that watches the key checks. -/
structure Cell.Unchanged (seenAt : ℕ) (seen : Cell ν) (t : ℕ) (cell : Cell ν) : Prop where
  version : cell.version = seen.version
  present : (visible seenAt seen.slot).isSome → (visible t cell.slot).isSome

theorem Cell.Unchanged.visible_eq {seenAt t : ℕ} {seen cell : Cell ν}
    (h : Cell.Unchanged seenAt seen t cell) (hlater : seen.Later cell) (hle : seenAt ≤ t) :
    visible t cell.slot = visible seenAt seen.slot := by
  have hpresent := h.present
  rw [hlater.same h.version.symm] at *
  rcases ht : visible t cell.slot with _ | s
  · rcases hs : visible seenAt cell.slot with _ | s
    · rfl
    · simp [ht, hs] at hpresent
  · obtain ⟨hslot, halive⟩ := visible_eq_some.mp ht
    rw [hslot, visible_of_alive (alive_earlier hle halive)]

end ExpiringKeys
