import Mathlib.Logic.Function.Basic

/-! # Optimistic transactions

Connections watch keys of a store. A write to a watched key touches the connection, and a
transaction on a touched connection does nothing. On a connection that is not touched, what was
read of the watched keys still holds. -/
namespace WatchedStores

open Function

variable {κ ν ι : Type}

structure Store (κ ν ι : Type) where
  stored : κ → Option ν
  watched : ι → List κ
  touched : ι → Bool

/-- From one store to a later one, as a connection sees it: if it is not touched in the end, it was
not touched before and the watched keys are as they were. -/
structure Follows (s s' : Store κ ν ι) (i : ι) : Prop where
  watched : s'.watched i = s.watched i
  clean : s'.touched i = false →
    s.touched i = false ∧ ∀ key ∈ s.watched i, s'.stored key = s.stored key

variable {s s' s'' : Store κ ν ι} {i j : ι} {key : κ}

theorem Follows.refl (s : Store κ ν ι) (i : ι) : Follows s s i :=
  ⟨rfl, fun h => ⟨h, fun _ _ => rfl⟩⟩

theorem Follows.trans (h : Follows s s' i) (h' : Follows s' s'' i) : Follows s s'' i := by
  refine ⟨h'.watched.trans h.watched, fun hclean => ?_⟩
  obtain ⟨hmiddle, hlater⟩ := h'.clean hclean
  obtain ⟨hfirst, hearlier⟩ := h.clean hmiddle
  refine ⟨hfirst, fun key hkey => ?_⟩
  rw [hlater key (h.watched ▸ hkey), hearlier key hkey]

section Watching

variable [DecidableEq ι]

def Store.watch (s : Store κ ν ι) (i : ι) (keys : List κ) : Store κ ν ι :=
  { s with
    watched := update s.watched i keys
    touched := update s.touched i false }

def Store.unwatch (s : Store κ ν ι) (i : ι) : Store κ ν ι := s.watch i []

theorem follows_watch (h : i ≠ j) (keys : List κ) : Follows s (s.watch j keys) i :=
  ⟨update_of_ne h _ _,
    fun hclean => ⟨(update_of_ne h _ _).symm.trans hclean, fun _ _ => rfl⟩⟩

end Watching

variable [DecidableEq κ]

def Store.put (s : Store κ ν ι) (key : κ) (value : Option ν) : Store κ ν ι :=
  { s with
    stored := update s.stored key value
    touched := fun i => s.touched i || decide (key ∈ s.watched i) }

theorem follows_put (s : Store κ ν ι) (key : κ) (value : Option ν) (i : ι) :
    Follows s (s.put key value) i := by
  refine ⟨rfl, fun hclean => ?_⟩
  obtain ⟨hbefore, hother⟩ := Bool.or_eq_false_iff.mp hclean
  refine ⟨hbefore, fun key' hkey' => update_of_ne ?_ _ _⟩
  rintro rfl
  exact of_decide_eq_false hother hkey'

variable [DecidableEq ι]

def Store.exec (s : Store κ ν ι) (i : ι) (key : κ) (value : ν) : Store κ ν ι :=
  if s.touched i then s.unwatch i else (s.put key (some value)).unwatch i

theorem follows_exec (h : i ≠ j) (value : ν) : Follows s (s.exec j key value) i := by
  rw [Store.exec]
  by_cases htouched : s.touched j = true
  · rw [if_pos htouched]
    exact follows_watch h []
  · rw [if_neg htouched]
    exact (follows_put s key (some value) i).trans (follows_watch h [])

theorem exec_touched (h : s.touched i = true) (key : κ) (value : ν) :
    (s.exec i key value).stored = s.stored := by
  rw [Store.exec, if_pos h]
  rfl

theorem exec_clean (h : s.touched i = false) (key : κ) (value : ν) :
    (s.exec i key value).stored = update s.stored key (some value) := by
  rw [Store.exec, if_neg (Bool.eq_false_iff.mp h)]
  rfl

end WatchedStores
