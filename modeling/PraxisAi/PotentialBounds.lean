import PraxisAi.TimedRuns
import Mathlib.Algebra.Order.Field.Basic
import Mathlib.Data.Nat.Cast.Order.Ring
import Mathlib.Tactic.Linarith

/-! # Bounding what a machine spends in a time window

A potential that grows at most at a fixed rate, pays for everything the machine spends and is
fed by everything it gains bounds the spending in any window of time: by what the potential
can hold, plus what it accrues over the window, plus the gains inside the window. -/
namespace PotentialBounds

open TimedRuns

variable {σ ι ο K : Type*} [Field K]

/-- The sum of `f` over the inputs of a run that fall into a window of time. -/
def windowSum (step : σ → ι → σ × ο) (time : ι → ℕ) (t₁ t₂ : ℕ) (f : σ → ι → K) :
    σ → List ι → K
  | _, [] => 0
  | s, i :: is =>
    (if t₁ ≤ time i ∧ time i ≤ t₂ then f s i else 0) +
      windowSum step time t₁ t₂ f (step s i).1 is

structure Potential [LinearOrder K] (step : σ → ι → σ × ο) (time : ι → ℕ)
    (I : ℕ → σ → Prop) (V : ℕ → σ → K) (rate : K) (spend gain : σ → ι → K) : Prop where
  rate_nonneg : 0 ≤ rate
  later : ∀ {t u s}, I t s → t ≤ u → I u s
  keeps : ∀ {s i}, I (time i) s → I (time i) (step s i).1
  nonneg : ∀ {t s}, I t s → 0 ≤ V t s
  grows : ∀ {t u s}, I t s → t ≤ u → V u s ≤ V t s + rate * ((u - t : ℕ) : K)
  pays : ∀ {s i}, I (time i) s → V (time i) (step s i).1 + spend s i ≤ V (time i) s + gain s i

variable {step : σ → ι → σ × ο} {time : ι → ℕ} {I : ℕ → σ → Prop} {V : ℕ → σ → K} {rate : K}
  {spend gain : σ → ι → K} {t t₁ t₂ : ℕ} {s : σ} {is : List ι}

theorem windowSum_after (f : σ → ι → K) (ho : Ordered time t is) (ht : t₂ < t) :
    windowSum step time t₁ t₂ f s is = 0 := by
  induction is generalizing t s with
  | nil => rfl
  | cons i is ih =>
    have hlate : ¬ (t₁ ≤ time i ∧ time i ≤ t₂) := by
      have := ho.1
      omega
    simp only [windowSum, hlate, if_false, zero_add]
    exact ih ho.2 (by have := ho.1; omega)

variable [LinearOrder K] [IsStrictOrderedRing K]

theorem windowSum_mono {f g : σ → ι → K} (h : ∀ s i, f s i ≤ g s i) (s : σ) (is : List ι) :
    windowSum step time t₁ t₂ f s is ≤ windowSum step time t₁ t₂ g s is := by
  induction is generalizing s with
  | nil => exact le_rfl
  | cons i is ih =>
    simp only [windowSum]
    split
    · exact add_le_add (h s i) (ih _)
    · exact add_le_add le_rfl (ih _)

/-- From inside the window on, the potential at hand pays. -/
theorem Potential.window_from (hV : Potential step time I V rate spend gain) (t₂ : ℕ)
    (hI : I t s) (ho : Ordered time t is) (h₁ : t₁ ≤ t) :
    windowSum step time t₁ t₂ spend s is ≤
      V t s + rate * ((t₂ - t : ℕ) : K) + windowSum step time t₁ t₂ gain s is := by
  induction is generalizing t s with
  | nil =>
    have hv := hV.nonneg hI
    have hr := mul_nonneg hV.rate_nonneg (Nat.cast_nonneg (α := K) (t₂ - t))
    simp only [windowSum]
    linarith
  | cons i is ih =>
    have hI' := hV.later hI ho.1
    by_cases hin : time i ≤ t₂
    · have hwin : t₁ ≤ time i ∧ time i ≤ t₂ := ⟨h₁.trans ho.1, hin⟩
      have hrest := ih (hV.keeps hI') ho.2 hwin.1
      have hgrow := hV.grows hI ho.1
      have hpay := hV.pays hI'
      have hsplit : ((t₂ - t : ℕ) : K) = ((t₂ - time i : ℕ) : K) + ((time i - t : ℕ) : K) := by
        rw [← Nat.cast_add]
        congr 1
        have := ho.1
        omega
      simp only [windowSum, hwin, and_self, if_true]
      rw [hsplit, mul_add]
      linarith
    · have hv := hV.nonneg hI
      have hr := mul_nonneg hV.rate_nonneg (Nat.cast_nonneg (α := K) (t₂ - t))
      have hlate : Ordered time (time i) (i :: is) := ⟨le_rfl, ho.2⟩
      rw [windowSum_after spend hlate (by omega), windowSum_after gain hlate (by omega)]
      linarith

/-- What is spent in a window is bounded by the most the potential can hold, what accrues over
the window and what is gained in it. -/
theorem Potential.window (hV : Potential step time I V rate spend gain) (t₂ : ℕ) {most : K}
    (hmost : ∀ {t s}, I t s → V t s ≤ most) (hI : I t s) (ho : Ordered time t is)
    (h₁ : t ≤ t₁) :
    windowSum step time t₁ t₂ spend s is ≤
      most + rate * ((t₂ - t₁ : ℕ) : K) + windowSum step time t₁ t₂ gain s is := by
  induction is generalizing t s with
  | nil =>
    have hv := (hV.nonneg hI).trans (hmost hI)
    have hr := mul_nonneg hV.rate_nonneg (Nat.cast_nonneg (α := K) (t₂ - t₁))
    simp only [windowSum]
    linarith
  | cons i is ih =>
    by_cases hbefore : time i < t₁
    · have hout : ¬ (t₁ ≤ time i ∧ time i ≤ t₂) := by omega
      simp only [windowSum, hout, if_false, zero_add]
      exact ih (hV.keeps (hV.later hI ho.1)) ho.2 hbefore.le
    · have hI₁ := hV.later hI h₁
      have ho₁ : Ordered time t₁ (i :: is) := ⟨by omega, ho.2⟩
      have hfrom := hV.window_from t₂ hI₁ ho₁ le_rfl
      have hv := hmost hI₁
      linarith

end PotentialBounds
