import Mathlib.Data.List.Basic

/-! # Runs of a deterministic machine on timestamped inputs

A machine is a step function with an output. Inputs carry a time, and a run is
ordered when the times never go back. The two rules below are the only inductions
over runs that the ledger developments need. -/
namespace TimedRuns

variable {σ τ ι ο : Type*}

def final (step : σ → ι → σ × ο) : σ → List ι → σ
  | s, [] => s
  | s, i :: is => final step (step s i).1 is

def outputs (step : σ → ι → σ × ο) : σ → List ι → List ο
  | _, [] => []
  | s, i :: is => (step s i).2 :: outputs step (step s i).1 is

def Ordered (time : ι → ℕ) : ℕ → List ι → Prop
  | _, [] => True
  | t, i :: is => t ≤ time i ∧ Ordered time (time i) is

def lastTime (time : ι → ℕ) : ℕ → List ι → ℕ
  | t, [] => t
  | _, i :: is => lastTime time (time i) is

/-- A condition on each input, read in the state that input is applied to. -/
def Along (step : σ → ι → σ × ο) (ok : σ → ι → Prop) : σ → List ι → Prop
  | _, [] => True
  | s, i :: is => ok s i ∧ Along step ok (step s i).1 is

instance (time : ι → ℕ) : ∀ t is, Decidable (Ordered time t is)
  | _, [] => isTrue trivial
  | t, i :: is =>
    have := instDecidableOrdered time (time i) is
    inferInstanceAs (Decidable (t ≤ time i ∧ Ordered time (time i) is))

/-- What one step preserves, up to the time of its input, a whole run preserves. -/
theorem invariant_final {step : σ → ι → σ × ο} {time : ι → ℕ} {ok : σ → ι → Prop}
    {I : ℕ → σ → Prop}
    (hstep : ∀ t s i, I t s → t ≤ time i → ok s i → I (time i) (step s i).1)
    {t : ℕ} {s : σ} {is : List ι} (hI : I t s) (ho : Ordered time t is)
    (ha : Along step ok s is) : I (lastTime time t is) (final step s is) := by
  induction is generalizing t s with
  | nil => exact hI
  | cons i is ih => exact ih (hstep t s i hI ho.1 ha.1) ho.2 ha.2

theorem along_of_forall {step : σ → ι → σ × ο} {ok : σ → ι → Prop} (h : ∀ s i, ok s i)
    {s : σ} {is : List ι} : Along step ok s is := by
  induction is generalizing s with
  | nil => trivial
  | cons i is ih => exact ⟨h s i, ih⟩

theorem along_of_outputs {step : σ → ι → σ × ο} {p : ο → Prop} {s : σ} {is : List ι}
    (h : ∀ o ∈ outputs step s is, p o) : Along step (fun s i => p (step s i).2) s is := by
  induction is generalizing s with
  | nil => trivial
  | cons i is ih =>
    exact ⟨h _ List.mem_cons_self, ih fun o ho => h o (List.mem_cons_of_mem _ ho)⟩

/-- Two machines that stay related and answer every input alike give equal outputs. -/
theorem simulation_outputs {step : σ → ι → σ × ο} {step' : τ → ι → τ × ο} {time : ι → ℕ}
    {ok : σ → ι → Prop} {ok' : τ → ι → Prop} {R : ℕ → σ → τ → Prop}
    (hstep : ∀ t s u i, R t s u → t ≤ time i → ok s i → ok' u i →
      R (time i) (step s i).1 (step' u i).1 ∧ (step s i).2 = (step' u i).2)
    {t : ℕ} {s : σ} {u : τ} {is : List ι} (hR : R t s u) (ho : Ordered time t is)
    (ha : Along step ok s is) (hb : Along step' ok' u is) :
    outputs step s is = outputs step' u is := by
  induction is generalizing t s u with
  | nil => rfl
  | cons i is ih =>
    obtain ⟨hR', heq⟩ := hstep t s u i hR ho.1 ha.1 hb.1
    simp only [outputs]
    rw [heq, ih hR' ho.2 ha.2 hb.2]

end TimedRuns
