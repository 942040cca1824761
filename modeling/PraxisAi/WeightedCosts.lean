import PraxisAi.DecimalText
import PraxisAi.FallibleSteps
import Mathlib.Data.NNRat.Floor
import Mathlib.Algebra.Order.Floor.Semiring
import Mathlib.Data.Nat.Dist
import Mathlib.Tactic.Linarith

/-! # Weighted token costs

What a finished request is charged. The counts a provider reports are split into six parts, each
part is weighted, and the sum is rounded up. Weights are exact rationals. -/
namespace WeightedCosts

open SaturatingArithmetic DecimalText FallibleSteps

/-! ## Weights -/

/-- Every weight is finite and not negative. -/
structure TokenWeights where
  input : ℚ≥0
  output : ℚ≥0
  cachedInput : ℚ≥0
  cacheWrite : ℚ≥0
  reasoning : ℚ≥0
  deriving DecidableEq

def TokenWeights.unity : TokenWeights := ⟨1, 1, 1, 1, 1⟩

/-! ## Reported usage -/

/-- Counts are unsigned 64-bit numbers; an absent count is not a count of zero. -/
structure UsageCounts where
  input : Option ℕ
  output : Option ℕ
  total : Option ℕ
  cacheRead : Option ℕ
  cacheWrite : Option ℕ
  reasoning : Option ℕ
  overflow : Bool
  fits : ∀ count ∈ [input, output, total, cacheRead, cacheWrite, reasoning],
    ∀ n ∈ count, n ≤ u64Max

/-! ## The charge -/

def costU64Cap : ℕ := 2 ^ 53

/-- Nearer to the sum without reasoning, the total has the reasoning inside the output. -/
def reasoningIsNested (input output : ℕ) (total : Option ℕ) (reasoning : ℕ) : Bool :=
  if reasoning = 0 then true
  else
    match total with
    | none => true
    | some total =>
      let nestedSum := satAdd u64Max input output
      let additiveSum := satAdd u64Max nestedSum reasoning
      Nat.dist total nestedSum ≤ Nat.dist total additiveSum

structure Parts where
  uncached : ℕ
  cacheRead : ℕ
  cacheWrite : ℕ
  visibleOutput : ℕ
  reasoningTokens : ℕ
  uncovered : ℕ
  deriving DecidableEq

def Parts.sum (parts : Parts) : ℕ :=
  parts.uncached + parts.cacheRead + parts.cacheWrite + parts.visibleOutput +
    parts.reasoningTokens + parts.uncovered

section Cost

variable (input output : ℕ) (usage : UsageCounts)

def nested : Bool := reasoningIsNested input output usage.total (usage.reasoning.getD 0)

def accounted : ℕ :=
  let accounted := satAdd u64Max input output
  if nested input output usage then accounted
  else satAdd u64Max accounted (usage.reasoning.getD 0)

/-- What exceeds its parent is cut down to it. -/
def partition : Parts :=
  let cacheRead := min (usage.cacheRead.getD 0) input
  let afterRead := input - cacheRead
  let cacheWrite := min (usage.cacheWrite.getD 0) afterRead
  let uncached := afterRead - cacheWrite
  let reasoning := usage.reasoning.getD 0
  let (visibleOutput, reasoningTokens) :=
    if nested input output usage then
      let nestedReasoning := min reasoning output
      (output - nestedReasoning, nestedReasoning)
    else (output, reasoning)
  let uncovered := usage.total.elim 0 fun total => total - accounted input output usage
  { uncached, cacheRead, cacheWrite, visibleOutput, reasoningTokens, uncovered }

def toCost (tokens : ℕ) : ℚ≥0 := (min tokens costU64Cap : ℕ)

def ceilCost (cost : ℚ≥0) : ℕ := if cost ≤ 0 then 0 else ⌈min cost costU64Cap⌉₊

def Parts.weighted (parts : Parts) (weights : TokenWeights) : ℚ≥0 :=
  toCost parts.uncached * weights.input + toCost parts.cacheRead * weights.cachedInput +
    toCost parts.cacheWrite * weights.cacheWrite + toCost parts.visibleOutput * weights.output +
    toCost parts.reasoningTokens * weights.reasoning + toCost parts.uncovered * weights.input

def partitionedCost (weights : TokenWeights) : ℕ :=
  ceilCost ((partition input output usage).weighted weights)

def weightedCost (weights : TokenWeights) : Option ℕ :=
  if usage.overflow then none
  else
    match usage.input, usage.output with
    | some input, some output => some (partitionedCost input output usage weights)
    | _, _ => usage.total

end Cost

/-! ## The parts -/

/-- Reasoning counts on top of the output only when it is judged to be additive. -/
def reasoningOnTop (input output : ℕ) (usage : UsageCounts) : ℕ :=
  if nested input output usage then 0 else usage.reasoning.getD 0

section Partition

variable {input output : ℕ} {usage : UsageCounts}

theorem total_le_u64Max (usage : UsageCounts) : usage.total.getD 0 ≤ u64Max := by
  cases htotal : usage.total with
  | none => exact Nat.zero_le _
  | some total => exact usage.fits usage.total (by simp) total htotal

theorem partition_input : (partition input output usage).uncached +
    (partition input output usage).cacheRead + (partition input output usage).cacheWrite =
      input := by
  simp only [partition]
  omega

theorem partition_output : (partition input output usage).visibleOutput +
    (partition input output usage).reasoningTokens =
      output + reasoningOnTop input output usage := by
  simp only [partition, reasoningOnTop]
  by_cases hnested : nested input output usage = true
  · simp only [hnested, if_true]
    omega
  · simp only [hnested, Bool.false_eq_true, if_false]

theorem accounted_eq (input output : ℕ) (usage : UsageCounts) :
    accounted input output usage =
      min (input + output + reasoningOnTop input output usage) u64Max := by
  simp only [accounted, reasoningOnTop]
  by_cases hnested : nested input output usage = true
  · simp only [hnested, if_true, satAdd, Nat.add_zero]
  · simp only [hnested, Bool.false_eq_true, if_false]
    exact satAdd_min_left _ _ _

theorem partition_uncovered : (partition input output usage).uncovered =
    usage.total.getD 0 - accounted input output usage := by
  simp only [partition]
  cases usage.total with
  | none => simp
  | some total => rfl

/-- No token is dropped and none is counted twice, however the breakdowns contradict the counts
they belong to. A saturated sum hides nothing: no total exceeds it. -/
theorem partition_sum : (partition input output usage).sum =
    max (usage.total.getD 0) (input + output + reasoningOnTop input output usage) := by
  have hin := @partition_input input output usage
  have hout := @partition_output input output usage
  have huncovered := @partition_uncovered input output usage
  have haccounted := accounted_eq input output usage
  have htotal := total_le_u64Max usage
  unfold Parts.sum
  omega

theorem partition_sum_saturated : min (partition input output usage).sum u64Max =
    max (usage.total.getD 0) (accounted input output usage) := by
  have htotal := total_le_u64Max usage
  rw [partition_sum, accounted_eq]
  omega

end Partition

/-! ## Rounding -/

theorem ceilCost_eq (cost : ℚ≥0) : ceilCost cost = min costU64Cap ⌈cost⌉₊ := by
  unfold ceilCost
  by_cases hzero : cost ≤ 0
  · rw [if_pos hzero, Nat.ceil_eq_zero.mpr hzero, Nat.min_zero]
  · rw [if_neg hzero]
    by_cases hcap : cost ≤ costU64Cap
    · rw [min_eq_left hcap, min_eq_right (Nat.ceil_le.mpr hcap)]
    · have hle : (costU64Cap : ℚ≥0) ≤ cost := (not_le.mp hcap).le
      have hceil : costU64Cap ≤ ⌈cost⌉₊ := by
        exact_mod_cast hle.trans (Nat.le_ceil cost)
      rw [min_eq_right hle, Nat.ceil_natCast, min_eq_left hceil]

/-- Cutting the parts at the cap changes nothing once their sum is cut there. -/
theorem ceilCost_unity (parts : Parts) :
    ceilCost (parts.weighted .unity) = min costU64Cap parts.sum := by
  have hcast : parts.weighted .unity =
      ((min parts.uncached costU64Cap + min parts.cacheRead costU64Cap +
        min parts.cacheWrite costU64Cap + min parts.visibleOutput costU64Cap +
        min parts.reasoningTokens costU64Cap + min parts.uncovered costU64Cap : ℕ) : ℚ≥0) := by
    simp only [Parts.weighted, TokenWeights.unity, toCost, mul_one, Nat.cast_add]
  rw [ceilCost_eq, hcast, Nat.ceil_natCast, Parts.sum]
  omega

/-- Six parts are charged, each at its own weight: those of the input make up the input, those of
the output the output with any reasoning on top, and the last what the total has beyond them. With
every weight 1 the charge is the greater of the total and the parts, and never below the total. -/
theorem charged_exactly_once (usage : UsageCounts) (input output : ℕ)
    (hinput : usage.input = some input) (houtput : usage.output = some output)
    (hoverflow : usage.overflow = false) :
    (∀ weights, weightedCost usage weights = some (partitionedCost input output usage weights) ∧
      partitionedCost input output usage weights =
        min costU64Cap ⌈(partition input output usage).weighted weights⌉₊) ∧
    (partition input output usage).sum =
      max (usage.total.getD 0) (input + output + reasoningOnTop input output usage) ∧
    min (partition input output usage).sum u64Max =
      max (usage.total.getD 0) (accounted input output usage) ∧
    partitionedCost input output usage .unity =
      min costU64Cap (max (usage.total.getD 0) (accounted input output usage)) ∧
    min costU64Cap (usage.total.getD 0) ≤ partitionedCost input output usage .unity := by
  have hunity : partitionedCost input output usage .unity =
      min costU64Cap (max (usage.total.getD 0) (accounted input output usage)) := by
    have hcap : costU64Cap ≤ u64Max := by decide
    rw [partitionedCost, ceilCost_unity, ← partition_sum_saturated]
    omega
  refine ⟨fun weights => ⟨?_, ceilCost_eq _⟩, partition_sum, partition_sum_saturated, hunity, ?_⟩
  · rw [weightedCost, hoverflow, hinput, houtput]
    rfl
  · rw [hunity]
    omega

theorem contradictory_fits :
    ∀ count ∈ [some 10, some 5, some 40, some 25, some 3, some 9], ∀ n ∈ count, n ≤ u64Max := by
  simp [u64Max]

/-- More reasoning than output, more cache reads than input, and a total beyond them all. -/
def contradictory : UsageCounts where
  input := some 10
  output := some 5
  total := some 40
  cacheRead := some 25
  cacheWrite := some 3
  reasoning := some 9
  overflow := false
  fits := contradictory_fits

theorem charged_exactly_once_contradictory :
    partition 10 5 contradictory = ⟨0, 10, 0, 5, 9, 16⟩ ∧
    weightedCost contradictory .unity = some 40 ∧
    min costU64Cap 40 ≤ partitionedCost 10 5 contradictory .unity := by
  obtain ⟨hcost, -, -, hunity, hleast⟩ := charged_exactly_once contradictory 10 5 rfl rfl rfl
  refine ⟨by decide, ?_, hleast⟩
  rw [(hcost .unity).1, hunity]
  decide

end WeightedCosts
