import Mathlib.Data.List.Basic

/-! # Steps that may fail

What can be said of a sequence of steps that has succeeded: every one of them has, and what each
of them keeps is kept by all. -/
namespace FallibleSteps

variable {ε α β : Type}

theorem bind_ok {x : Except ε α} {f : α → Except ε β} {b : β}
    (h : (x >>= f) = .ok b) : ∃ a, x = .ok a ∧ f a = .ok b := by
  cases x with
  | error e => cases h
  | ok a => exact ⟨a, rfl, h⟩

/-- A property of what has been taken in and of the state reached, kept by every step. -/
theorem foldlM_ok {step : β → α → Except ε β} {P : List α → β → Prop}
    (hstep : ∀ done x b b', P done b → step b x = .ok b' → P (done ++ [x]) b') {done xs : List α}
    {b b' : β} (hP : P done b) (h : xs.foldlM step b = .ok b') : P (done ++ xs) b' := by
  induction xs generalizing done b with
  | nil =>
    rw [List.foldlM_nil] at h
    cases h
    rwa [List.append_nil]
  | cons x rest ih =>
    rw [List.foldlM_cons] at h
    obtain ⟨b₁, hx, hrest⟩ := bind_ok h
    have := ih (hstep done x b b₁ hP hx) hrest
    rwa [List.append_assoc, List.singleton_append] at this

end FallibleSteps
