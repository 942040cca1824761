import PraxisAi.KeyedSorting
import PraxisAi.PrefixCodes
import PraxisAi.RateLimitKeys
import Mathlib.Data.Prod.Lex

/-! # Fingerprints of rate-limit configurations

A replica marks the state it shares with others by a hash of its configuration. What is hashed is
written without end marks: names, numbers of fixed width, lengths before texts and lists. It can
still be read back field by field, so that replicas with one mark have one configuration. -/
namespace ConfigFingerprints

open List Function
open RateLimitKeys EventStreamFrames SaturatingArithmetic PrefixCodes

section Configurations

/-- No object in memory has as many bytes. -/
def memoryBound : ℕ := 0x8000000000000000

abbrev Held (α : Type) := { l : List α // l.length < memoryBound }

abbrev Text := { text : String // text.utf8ByteSize < memoryBound }

structure F64 where
  bits : UInt64
  deriving DecidableEq

/-- Both zeros are equal to zero. -/
def F64.isZero (value : F64) : Bool := value.bits = 0 || value.bits = 0x8000000000000000

def F64.IsPositiveFinite (value : F64) : Prop :=
  0 < value.bits ∧ value.bits < 0x7ff0000000000000

abbrev Positive := { value : F64 // value.IsPositiveFinite }

structure ModelMultipliers where
  entries : Held (Text × Positive)
  sorted : (entries.1.map fun entry => entry.1.1).Pairwise (· < ·)

inductive CompiledEstimation where
  | fixed (estimate : UInt64)
  | maxTokens (fallbackEstimate : Option UInt64) (multiplier : Positive)
  | inputPlusMaxTokens (fallbackEstimate : Option UInt64) (multiplier bytesPerToken : Positive)
  | modelScaled (fallbackEstimate : Option UInt64) (modelMultipliers : ModelMultipliers)
      (defaultMultiplier : Positive)

structure TokenWeights where
  input : F64
  output : F64
  cachedInput : F64
  cacheWrite : F64
  reasoning : F64

structure AccountingPolicy where
  estimation : CompiledEstimation
  weights : TokenWeights
  keyFingerprint : Text

structure Budget where
  windowMs : UInt64
  capacity : UInt64
  deriving DecidableEq

def accountingConfigSchema : String := "v3"

def digestU64 (value : UInt64) : Bytes := beBytes 8 value.toNat

def digestOptionalU64 : Option UInt64 → Bytes
  | some value => 1 :: digestU64 value
  | none => [0]

def digestF64 (value : F64) : Bytes := digestU64 (if value.isZero then 0 else value.bits)

def digestMultiplier (entry : Text × Positive) : Bytes :=
  digestString entry.1.1 ++ digestF64 entry.2.1

def digestEstimation (policy : AccountingPolicy) : Bytes :=
  utf8 "estimation" ++
    match policy.estimation with
    | .fixed estimate => utf8 "fixed" ++ digestU64 estimate
    | .maxTokens fallbackEstimate multiplier =>
      utf8 "max_tokens" ++ (digestOptionalU64 fallbackEstimate ++ digestF64 multiplier.1)
    | .inputPlusMaxTokens fallbackEstimate multiplier bytesPerToken =>
      utf8 "input_plus_max_tokens" ++ (digestOptionalU64 fallbackEstimate ++
        (digestF64 multiplier.1 ++ digestF64 bytesPerToken.1))
    | .modelScaled fallbackEstimate modelMultipliers defaultMultiplier =>
      utf8 "model_scaled" ++ (digestOptionalU64 fallbackEstimate ++
        (digestF64 defaultMultiplier.1 ++ (digestUsize modelMultipliers.entries.1.length ++
          modelMultipliers.entries.1.flatMap digestMultiplier)))

def digestWeights (weights : TokenWeights) : Bytes :=
  utf8 "weights" ++ [weights.input, weights.output, weights.cachedInput, weights.cacheWrite,
    weights.reasoning].flatMap digestF64

def digestShared (reservationTimeoutMs maxKeys maxActiveReservations : UInt64)
    (accounting : AccountingPolicy) : Bytes :=
  digestU64 reservationTimeoutMs ++ (digestUsize maxKeys.toNat ++
    (digestUsize maxActiveReservations.toNat ++ (digestEstimation accounting ++
      (digestWeights accounting.weights ++
        (utf8 "key_policy" ++ digestString accounting.keyFingerprint.1)))))

def digestHead (algorithm : String) : Bytes :=
  utf8 "praxis:token_rate_limit:accounting_config" ++ (0 :: (utf8 accountingConfigSchema ++
    (0 :: (utf8 algorithm ++ [0]))))

/-- Tuples are compared field by field. -/
def budgetLe (left right : UInt64 × UInt64) : Bool :=
  decide (left.1 < right.1 ∨ left.1 = right.1 ∧ left.2 ≤ right.2)

def canonicalBudgets (budgets : List Budget) : List (UInt64 × UInt64) :=
  (budgets.map fun budget => (budget.windowMs, budget.capacity)).mergeSort budgetLe

def digestBudget (budget : UInt64 × UInt64) : Bytes := digestU64 budget.1 ++ digestU64 budget.2

def slidingWindowConfig (budgets : Held Budget)
    (reservationTimeoutMs maxKeys maxActiveReservations : UInt64)
    (accounting : AccountingPolicy) : Bytes :=
  digestHead "sliding_window" ++ (digestUsize (canonicalBudgets budgets.1).length ++
    ((canonicalBudgets budgets.1).flatMap digestBudget ++
      digestShared reservationTimeoutMs maxKeys maxActiveReservations accounting))

def tokenBucketConfig (capacity : UInt64) (refillRate : F64)
    (reservationTimeoutMs maxKeys maxActiveReservations : UInt64)
    (accounting : AccountingPolicy) : Bytes :=
  digestHead "token_bucket" ++ (digestU64 capacity ++ (digestU64 refillRate.bits ++
    digestShared reservationTimeoutMs maxKeys maxActiveReservations accounting))

variable (hash : Bytes → Bytes)

def accountingConfigFingerprint (message : Bytes) : String :=
  accountingConfigSchema ++ (":" ++
    String.join ((hash message).map fun byte => DecimalText.hexText 2 byte.toNat))

def slidingWindowConfigFingerprint (budgets : Held Budget)
    (reservationTimeoutMs maxKeys maxActiveReservations : UInt64)
    (accounting : AccountingPolicy) : String :=
  accountingConfigFingerprint hash
    (slidingWindowConfig budgets reservationTimeoutMs maxKeys maxActiveReservations accounting)

def tokenBucketConfigFingerprint (capacity : UInt64) (refillRate : F64)
    (reservationTimeoutMs maxKeys maxActiveReservations : UInt64)
    (accounting : AccountingPolicy) : String :=
  accountingConfigFingerprint hash
    (tokenBucketConfig capacity refillRate reservationTimeoutMs maxKeys maxActiveReservations
      accounting)

end Configurations

section Fields

theorem prefixFree_beBytes {α : Type} {width : ℕ} {value : α → ℕ}
    (hvalue : Injective value) (hbound : ∀ a, value a < 256 ^ width) :
    PrefixFree fun a => beBytes width (value a) := by
  refine prefixFree_of_length (fun a => length_beBytes width (value a)) fun a b h => hvalue ?_
  have hvalues := congrArg beValue h
  rwa [beValue_beBytes (hbound a), beValue_beBytes (hbound b)] at hvalues

theorem prefixFree_u64 : PrefixFree digestU64 :=
  prefixFree_beBytes (fun _ _ h => UInt64.toNat_inj.mp h) fun value => value.toNat_lt

theorem prefixFree_count : PrefixFree fun n : Fin memoryBound => digestUsize n := by
  have hmin : ∀ n : Fin memoryBound, min n.1 u64Max = n.1 := by
    intro n
    have hbound : memoryBound ≤ u64Max := by decide
    exact min_eq_left (n.2.le.trans hbound)
  refine prefixFree_beBytes (fun a b h => ?_) fun n => ?_
  · rw [hmin, hmin] at h
    exact Fin.ext h
  · rw [hmin]
    exact n.2.trans (by decide)

theorem prefixFree_usize : PrefixFree fun n : UInt64 => digestUsize n.toNat := by
  have hmin : ∀ n : UInt64, digestUsize n.toNat = digestU64 n := by
    intro n
    have hn := n.toNat_lt
    rw [digestUsize, digestU64, u64Max, min_eq_left (by omega)]
  simp only [hmin]
  exact prefixFree_u64

theorem prefixFree_byte : PrefixFree fun byte : UInt8 => [byte] := by
  intro a b hbegins
  exact (cons_prefix_cons.mp hbegins).1

theorem prefixFree_text : PrefixFree fun text : Text => digestString text.1 := by
  have hbytes : ∀ text : Text, digestString text.1 =
      digestUsize (utf8 text.1).length ++ (utf8 text.1).flatMap fun byte => [byte] := by
    intro text
    rw [flatMap_singleton']
    rfl
  simp only [hbytes]
  exact (prefixFree_byte.counted prefixFree_count).comp
    (f := fun text : Text => ⟨utf8 text.1, text.2⟩)
    fun a b h => Subtype.ext (utf8_injective (congrArg Subtype.val h))

theorem prefixFree_headerName : PrefixFree fun name : HeaderName => digestString name.1 :=
  prefixFree_text.comp
    (f := fun name : HeaderName => ⟨name.1, Nat.lt_of_le_of_lt name.2.2.1 (by decide)⟩)
    fun _ _ h => Subtype.ext (congrArg (fun text : Text => text.1) h)

theorem prefixFree_optionalU64 : PrefixFree digestOptionalU64 := by
  have hoptional : digestOptionalU64 = optional 0 1 digestU64 := by
    funext value
    cases value <;> rfl
  rw [hoptional]
  exact prefixFree_u64.optional (by decide)

/-- The bits that are hashed: zero has no sign. -/
def normalBits (value : F64) : UInt64 := if value.isZero then 0 else value.bits

theorem isZero_iff (value : F64) :
    value.isZero = true ↔ value.bits = 0 ∨ value.bits = 0x8000000000000000 := by
  rw [F64.isZero, Bool.or_eq_true, decide_eq_true_iff, decide_eq_true_iff]

theorem normalBits_positive (value : Positive) : normalBits value.1 = value.1.bits := by
  obtain ⟨hlow, hhigh⟩ := value.2
  refine if_neg fun hzero => ?_
  rcases (isZero_iff _).mp hzero with h | h
  · rw [h] at hlow
    exact absurd hlow (by decide)
  · rw [h] at hhigh
    exact absurd hhigh (by decide)

theorem prefixFree_positive : PrefixFree fun value : Positive => digestF64 value.1 := by
  refine prefixFree_u64.comp (f := fun value : Positive => normalBits value.1) ?_
  intro a b h
  dsimp only at h
  rw [normalBits_positive, normalBits_positive] at h
  exact Subtype.ext (congrArg F64.mk h)

theorem prefixFree_multiplier : PrefixFree digestMultiplier := by
  have hpair := prefixFree_text.append prefixFree_positive
  exact hpair

theorem prefixFree_multipliers : PrefixFree fun entries : Held (Text × Positive) =>
    digestUsize entries.1.length ++ entries.1.flatMap digestMultiplier :=
  prefixFree_multiplier.counted prefixFree_count

theorem prefixFree_budgets : PrefixFree fun budgets : Held (UInt64 × UInt64) =>
    digestUsize budgets.1.length ++ budgets.1.flatMap digestBudget :=
  (prefixFree_u64.append prefixFree_u64).counted prefixFree_count

end Fields

section KeyPolicies

def dimensionTag : CompiledDimension → String
  | .global => "global"
  | .authenticatedSubject => "authenticated_subject"
  | .ip _ _ _ => "ip"
  | .model _ => "model"
  | .header _ _ => "header"

def dimensionOptions : CompiledDimension → Bytes
  | .global => []
  | .authenticatedSubject => []
  | .ip header trustedHops ipv6Prefix =>
    optional 0 1 (fun name : HeaderName => digestString name.1) header ++
      (beBytes 4 trustedHops.toNat ++ optional 0 1 (fun length => [length]) ipv6Prefix)
  | .model header => digestString header.1
  | .header name missing => digestString name.1 ++ [missingPolicyTag missing]

theorem digestDimension_eq (dimension : CompiledDimension) :
    digestDimension dimension = utf8 (dimensionTag dimension) ++ dimensionOptions dimension := by
  cases dimension with
  | global => rfl
  | authenticatedSubject => rfl
  | ip header trustedHops ipv6Prefix => cases header <;> cases ipv6Prefix <;> rfl
  | model header => rfl
  | header name missing => rfl

theorem missingPolicyTag_injective : Injective missingPolicyTag := by
  intro a b h
  cases a <;> cases b <;> first | rfl | exact absurd h (by decide)

theorem prefixFree_dimension : PrefixFree digestDimension := by
  rintro a b ⟨rest, h⟩
  have htags : ∀ v ∈ ["global", "authenticated_subject", "ip", "model", "header"].map utf8,
      ∀ w ∈ ["global", "authenticated_subject", "ip", "model", "header"].map utf8,
        v <+: w → v = w := by decide
  have htag : ∀ dimension, utf8 (dimensionTag dimension) ∈
      ["global", "authenticated_subject", "ip", "model", "header"].map utf8 := by
    intro dimension
    apply mem_map_of_mem
    cases dimension <;> simp [dimensionTag]
  rw [digestDimension_eq, digestDimension_eq, append_assoc] at h
  obtain ⟨hsame, hoptions⟩ := tag_split htags (htag a) (htag b) h
  have hname := utf8_injective hsame
  cases a with
  | global =>
    cases b with
    | global => rfl
    | _ => simp [dimensionTag] at hname
  | authenticatedSubject =>
    cases b with
    | authenticatedSubject => rfl
    | _ => simp [dimensionTag] at hname
  | ip header trustedHops ipv6Prefix =>
    cases b with
    | ip header' trustedHops' ipv6Prefix' =>
      rw [dimensionOptions, dimensionOptions, append_assoc] at hoptions
      obtain ⟨rfl, hhops⟩ :=
        (prefixFree_headerName.optional (by decide : (0 : UInt8) ≠ 1)).split hoptions
      rw [append_assoc] at hhops
      have hcode : PrefixFree fun hops : UInt32 => beBytes 4 hops.toNat :=
        prefixFree_beBytes (fun _ _ h => UInt32.toNat_inj.mp h) fun hops => hops.toNat_lt
      obtain ⟨rfl, hlength⟩ := hcode.split hhops
      rw [(prefixFree_byte.optional (by decide : (0 : UInt8) ≠ 1)) ⟨rest, hlength⟩]
    | _ => simp [dimensionTag] at hname
  | model header =>
    cases b with
    | model header' => rw [prefixFree_headerName ⟨rest, hoptions⟩]
    | _ => simp [dimensionTag] at hname
  | header name missing =>
    cases b with
    | header name' missing' =>
      rw [dimensionOptions, dimensionOptions, append_assoc] at hoptions
      obtain ⟨rfl, hpolicy⟩ := prefixFree_headerName.split hoptions
      rw [missingPolicyTag_injective (List.cons.inj hpolicy).1]
    | _ => simp [dimensionTag] at hname

theorem keyConfig_injective : Injective keyConfig := by
  rintro ⟨dimensions, missing⟩ ⟨dimensions', missing'⟩ h
  have hbody := (List.cons.inj (append_cancel_left h)).2
  obtain ⟨hmissing, hlist⟩ := List.cons.inj hbody
  have hlength : ∀ n, (digestUsize n).length = 8 := fun n => length_beBytes 8 _
  have hdimensions := (append_inj hlist ((hlength _).trans (hlength _).symm)).2
  have hwords : ∀ dimension, digestDimension dimension ≠ [] := by
    intro dimension hempty
    rw [digestDimension_eq, append_eq_nil_iff] at hempty
    have htag : ∀ tag ∈ ["global", "authenticated_subject", "ip", "model", "header"],
        utf8 tag ≠ [] := by decide
    refine htag _ ?_ hempty.1
    cases dimension <;> simp [dimensionTag]
  have hsame : dimensions = dimensions' :=
    prefixFree_dimension.flatMap_injective hwords hdimensions
  have hpolicy : missing = missing' := missingPolicyTag_injective hmissing
  rw [hsame, hpolicy]

end KeyPolicies

section Accounting

def estimationTag : CompiledEstimation → String
  | .fixed _ => "fixed"
  | .maxTokens _ _ => "max_tokens"
  | .inputPlusMaxTokens _ _ _ => "input_plus_max_tokens"
  | .modelScaled _ _ _ => "model_scaled"

def estimationFields : CompiledEstimation → Bytes
  | .fixed estimate => digestU64 estimate
  | .maxTokens fallbackEstimate multiplier =>
    digestOptionalU64 fallbackEstimate ++ digestF64 multiplier.1
  | .inputPlusMaxTokens fallbackEstimate multiplier bytesPerToken =>
    digestOptionalU64 fallbackEstimate ++ (digestF64 multiplier.1 ++ digestF64 bytesPerToken.1)
  | .modelScaled fallbackEstimate modelMultipliers defaultMultiplier =>
    digestOptionalU64 fallbackEstimate ++ (digestF64 defaultMultiplier.1 ++
      (digestUsize modelMultipliers.entries.1.length ++
        modelMultipliers.entries.1.flatMap digestMultiplier))

theorem digestEstimation_eq (policy : AccountingPolicy) : digestEstimation policy =
    utf8 "estimation" ++ (utf8 (estimationTag policy.estimation) ++
      estimationFields policy.estimation) := by
  rw [digestEstimation]
  cases policy.estimation <;> rfl

theorem digestEstimation_split {p q : AccountingPolicy} {x y : Bytes}
    (h : digestEstimation p ++ x = digestEstimation q ++ y) :
    p.estimation = q.estimation ∧ x = y := by
  have htags : ∀ v ∈ ["fixed", "max_tokens", "input_plus_max_tokens", "model_scaled"].map utf8,
      ∀ w ∈ ["fixed", "max_tokens", "input_plus_max_tokens", "model_scaled"].map utf8,
        v <+: w → v = w := by decide
  have htag : ∀ estimation, utf8 (estimationTag estimation) ∈
      ["fixed", "max_tokens", "input_plus_max_tokens", "model_scaled"].map utf8 := by
    intro estimation
    apply mem_map_of_mem
    cases estimation <;> simp [estimationTag]
  rw [digestEstimation_eq, digestEstimation_eq] at h
  simp only [append_assoc] at h
  have hbody := append_cancel_left h
  obtain ⟨hsame, hfields⟩ := tag_split htags (htag p.estimation) (htag q.estimation) hbody
  have hname := utf8_injective hsame
  generalize p.estimation = e at hfields hname ⊢
  generalize q.estimation = e' at hfields hname ⊢
  cases e with
  | fixed estimate =>
    cases e' with
    | fixed estimate' =>
      obtain ⟨rfl, hrest⟩ := prefixFree_u64.split hfields
      exact ⟨rfl, hrest⟩
    | _ => simp [estimationTag] at hname
  | maxTokens fallbackEstimate multiplier =>
    cases e' with
    | maxTokens fallbackEstimate' multiplier' =>
      simp only [estimationFields, append_assoc] at hfields
      obtain ⟨rfl, hmultiplier⟩ := prefixFree_optionalU64.split hfields
      obtain ⟨rfl, hrest⟩ := prefixFree_positive.split hmultiplier
      exact ⟨rfl, hrest⟩
    | _ => simp [estimationTag] at hname
  | inputPlusMaxTokens fallbackEstimate multiplier bytesPerToken =>
    cases e' with
    | inputPlusMaxTokens fallbackEstimate' multiplier' bytesPerToken' =>
      simp only [estimationFields, append_assoc] at hfields
      obtain ⟨rfl, hmultiplier⟩ := prefixFree_optionalU64.split hfields
      obtain ⟨rfl, hbytes⟩ := prefixFree_positive.split hmultiplier
      obtain ⟨rfl, hrest⟩ := prefixFree_positive.split hbytes
      exact ⟨rfl, hrest⟩
    | _ => simp [estimationTag] at hname
  | modelScaled fallbackEstimate modelMultipliers defaultMultiplier =>
    cases e' with
    | modelScaled fallbackEstimate' modelMultipliers' defaultMultiplier' =>
      simp only [estimationFields, append_assoc] at hfields
      obtain ⟨rfl, hdefault⟩ := prefixFree_optionalU64.split hfields
      obtain ⟨rfl, hmultipliers⟩ := prefixFree_positive.split hdefault
      rw [← append_assoc (digestUsize _), ← append_assoc (digestUsize _)] at hmultipliers
      obtain ⟨hentries, hrest⟩ := prefixFree_multipliers.split hmultipliers
      obtain ⟨entries, hsorted⟩ := modelMultipliers
      obtain ⟨entries', hsorted'⟩ := modelMultipliers'
      cases hentries
      exact ⟨rfl, hrest⟩
    | _ => simp [estimationTag] at hname

def SameF64 (a b : F64) : Prop := a = b ∨ a.isZero = true ∧ b.isZero = true

theorem sameF64_of_normalBits {a b : F64} (h : normalBits a = normalBits b) : SameF64 a b := by
  have hbits : ∀ {value : F64}, value.isZero ≠ true → value.bits ≠ 0 :=
    fun hzero heq => hzero ((isZero_iff _).mpr (.inl heq))
  rw [normalBits, normalBits] at h
  by_cases ha : a.isZero = true
  · by_cases hb : b.isZero = true
    · exact .inr ⟨ha, hb⟩
    · rw [if_pos ha, if_neg hb] at h
      exact absurd h.symm (hbits hb)
  · by_cases hb : b.isZero = true
    · rw [if_neg ha, if_pos hb] at h
      exact absurd h (hbits ha)
    · rw [if_neg ha, if_neg hb] at h
      exact .inl (congrArg F64.mk h)

structure SameWeights (a b : TokenWeights) : Prop where
  input : SameF64 a.input b.input
  output : SameF64 a.output b.output
  cachedInput : SameF64 a.cachedInput b.cachedInput
  cacheWrite : SameF64 a.cacheWrite b.cacheWrite
  reasoning : SameF64 a.reasoning b.reasoning

theorem digestWeights_split {a b : TokenWeights} {x y : Bytes}
    (h : digestWeights a ++ x = digestWeights b ++ y) : SameWeights a b ∧ x = y := by
  have hbits : ∀ values : List F64,
      values.flatMap digestF64 = (values.map normalBits).flatMap digestU64 := by
    intro values
    rw [flatMap_map]
    rfl
  rw [digestWeights, digestWeights, append_assoc, append_assoc] at h
  have hvalues := append_cancel_left h
  rw [hbits, hbits] at hvalues
  obtain ⟨hlist, hrest⟩ := prefixFree_u64.flatMap_split (by rfl) hvalues
  simp only [map_cons, List.cons.injEq] at hlist
  obtain ⟨h₁, h₂, h₃, h₄, h₅, -⟩ := hlist
  exact ⟨⟨sameF64_of_normalBits h₁, sameF64_of_normalBits h₂, sameF64_of_normalBits h₃,
    sameF64_of_normalBits h₄, sameF64_of_normalBits h₅⟩, hrest⟩

structure SamePolicy (a b : AccountingPolicy) : Prop where
  estimation : a.estimation = b.estimation
  weights : SameWeights a.weights b.weights
  keyFingerprint : a.keyFingerprint = b.keyFingerprint

theorem digestShared_split {timeout maxKeys maxActive timeout' maxKeys' maxActive' : UInt64}
    {p q : AccountingPolicy}
    (h : digestShared timeout maxKeys maxActive p = digestShared timeout' maxKeys' maxActive' q) :
    timeout = timeout' ∧ maxKeys = maxKeys' ∧ maxActive = maxActive' ∧ SamePolicy p q := by
  obtain ⟨htimeout, h⟩ := prefixFree_u64.split h
  obtain ⟨hkeys, h⟩ := prefixFree_usize.split h
  obtain ⟨hactive, h⟩ := prefixFree_usize.split h
  obtain ⟨hestimation, h⟩ := digestEstimation_split h
  obtain ⟨hweights, h⟩ := digestWeights_split h
  exact ⟨htimeout, hkeys, hactive, hestimation, hweights,
    prefixFree_text.injective (append_cancel_left h)⟩

inductive AccountingConfig where
  | slidingWindow (budgets : Held Budget)
      (reservationTimeoutMs maxKeys maxActiveReservations : UInt64) (accounting : AccountingPolicy)
  | tokenBucket (capacity : UInt64) (refillRate : F64)
      (reservationTimeoutMs maxKeys maxActiveReservations : UInt64) (accounting : AccountingPolicy)

def AccountingConfig.message : AccountingConfig → Bytes
  | .slidingWindow budgets timeout maxKeys maxActive accounting =>
    slidingWindowConfig budgets timeout maxKeys maxActive accounting
  | .tokenBucket capacity refillRate timeout maxKeys maxActive accounting =>
    tokenBucketConfig capacity refillRate timeout maxKeys maxActive accounting

def AccountingConfig.fingerprint (hash : Bytes → Bytes) : AccountingConfig → String
  | .slidingWindow budgets timeout maxKeys maxActive accounting =>
    slidingWindowConfigFingerprint hash budgets timeout maxKeys maxActive accounting
  | .tokenBucket capacity refillRate timeout maxKeys maxActive accounting =>
    tokenBucketConfigFingerprint hash capacity refillRate timeout maxKeys maxActive accounting

/-- One algorithm with one set of parameters, where the order of budgets and the sign of zero do
not count. -/
def AccountingConfig.Same : AccountingConfig → AccountingConfig → Prop
  | .slidingWindow budgets timeout maxKeys maxActive accounting,
    .slidingWindow budgets' timeout' maxKeys' maxActive' accounting' =>
    budgets.1.Perm budgets'.1 ∧ timeout = timeout' ∧ maxKeys = maxKeys' ∧ maxActive = maxActive' ∧
      SamePolicy accounting accounting'
  | .tokenBucket capacity refillRate timeout maxKeys maxActive accounting,
    .tokenBucket capacity' refillRate' timeout' maxKeys' maxActive' accounting' =>
    capacity = capacity' ∧ refillRate = refillRate' ∧ timeout = timeout' ∧ maxKeys = maxKeys' ∧
      maxActive = maxActive' ∧ SamePolicy accounting accounting'
  | _, _ => False

theorem fingerprint_eq (hash : Bytes → Bytes) (config : AccountingConfig) :
    config.fingerprint hash = accountingConfigFingerprint hash config.message := by
  cases config <;> rfl

theorem hash_of_fingerprint {hash : Bytes → Bytes} {m m' : Bytes}
    (h : accountingConfigFingerprint hash m = accountingConfigFingerprint hash m') :
    hash m = hash m' := by
  have htexts := congrArg String.toList h
  simp only [accountingConfigFingerprint, String.toList_append] at htexts
  have hhex := append_cancel_left (append_cancel_left htexts)
  exact DecimalText.join_hexText_injective (String.toList_inj.mp hhex)

theorem perm_of_canonicalBudgets {budgets budgets' : List Budget}
    (h : canonicalBudgets budgets = canonicalBudgets budgets') : budgets.Perm budgets' := by
  have hpairs : Injective fun budget : Budget => (budget.windowMs, budget.capacity) := by
    rintro ⟨w, c⟩ ⟨w', c'⟩ heq
    cases heq
    rfl
  have hsorted : ∀ budgets : List Budget, (canonicalBudgets budgets).Perm
      (budgets.map fun budget => (budget.windowMs, budget.capacity)) :=
    fun budgets => mergeSort_perm _ _
  refine (map_perm_map_iff hpairs).mp ((hsorted budgets).symm.trans ?_)
  rw [h]
  exact hsorted budgets'

theorem budgetLe_iff (left right : UInt64 × UInt64) : budgetLe left right = true ↔
    toLex (left.1.toNat, left.2.toNat) ≤ toLex (right.1.toNat, right.2.toNat) := by
  rw [budgetLe, decide_eq_true_iff, Prod.Lex.toLex_le_toLex, UInt64.lt_iff_toNat_lt,
    UInt64.le_iff_toNat_le, UInt64.toNat_inj]

/-- The order in which budgets are declared does not count. -/
theorem canonicalBudgets_perm {budgets budgets' : List Budget} (h : budgets.Perm budgets') :
    canonicalBudgets budgets = canonicalBudgets budgets' := by
  refine KeyedSorting.mergeSort_perm_eq budgetLe_iff ?_ (h.map _)
  intro a _ b _ hkeys
  have hsame := toLex.injective hkeys
  rw [Prod.mk.injEq, UInt64.toNat_inj, UInt64.toNat_inj] at hsame
  exact Prod.ext hsame.1 hsame.2

theorem digestHead_split {algorithm algorithm' : String} {x y : Bytes}
    (h₁ : (0 : UInt8) ∉ utf8 algorithm) (h₂ : (0 : UInt8) ∉ utf8 algorithm')
    (h : digestHead algorithm ++ x = digestHead algorithm' ++ y) :
    algorithm = algorithm' ∧ x = y := by
  simp only [digestHead, append_assoc, cons_append, nil_append] at h
  have hschema := (List.cons.inj (append_cancel_left h)).2
  have hname := (List.cons.inj (append_cancel_left hschema)).2
  obtain ⟨hsame, hrest⟩ := terminated_split h₁ h₂ hname
  exact ⟨utf8_injective hsame, hrest⟩

theorem same_of_message {a b : AccountingConfig} (h : a.message = b.message) : a.Same b := by
  have hsliding : (0 : UInt8) ∉ utf8 "sliding_window" := by decide
  have hbucket : (0 : UInt8) ∉ utf8 "token_bucket" := by decide
  cases a with
  | slidingWindow budgets timeout maxKeys maxActive accounting =>
    cases b with
    | slidingWindow budgets' timeout' maxKeys' maxActive' accounting' =>
      have hbody := (digestHead_split hsliding hsliding h).2
      have hheld : ∀ budgets : Held Budget, (canonicalBudgets budgets.1).length < memoryBound := by
        intro budgets
        rw [canonicalBudgets, length_mergeSort, length_map]
        exact budgets.2
      rw [← append_assoc, ← append_assoc] at hbody
      obtain ⟨hbudgets, hshared⟩ := @PrefixFree.split _ _ _ prefixFree_budgets
        ⟨_, hheld budgets⟩ ⟨_, hheld budgets'⟩ _ _ hbody
      exact ⟨perm_of_canonicalBudgets (congrArg Subtype.val hbudgets), digestShared_split hshared⟩
    | tokenBucket capacity refillRate timeout' maxKeys' maxActive' accounting' =>
      exact absurd (digestHead_split hsliding hbucket h).1 (by decide)
  | tokenBucket capacity refillRate timeout maxKeys maxActive accounting =>
    cases b with
    | slidingWindow budgets timeout' maxKeys' maxActive' accounting' =>
      exact absurd (digestHead_split hbucket hsliding h).1 (by decide)
    | tokenBucket capacity' refillRate' timeout' maxKeys' maxActive' accounting' =>
      have hbody := (digestHead_split hbucket hbucket h).2
      obtain ⟨hcapacity, hbody⟩ := prefixFree_u64.split hbody
      obtain ⟨hrate, hshared⟩ := prefixFree_u64.split hbody
      exact ⟨hcapacity, congrArg F64.mk hrate, digestShared_split hshared⟩

/-- Key policies with one fingerprint are the same, and so are accounting configurations. -/
theorem fingerprints_separate_configurations (hash : Bytes → Bytes) :
    (∀ a b : CompiledKeySpec, Set.InjOn hash {keyConfig a, keyConfig b} →
      configFingerprint hash a = configFingerprint hash b →
      a.missing = b.missing ∧ a.dimensions = b.dimensions) ∧
    ∀ a b : AccountingConfig, Set.InjOn hash {a.message, b.message} →
      a.fingerprint hash = b.fingerprint hash → a.Same b := by
  constructor
  · intro a b hinjective h
    have hmessage := hinjective (.inl rfl) (.inr rfl) (DecimalText.join_hexText_injective h)
    rw [keyConfig_injective hmessage]
    exact ⟨rfl, rfl⟩
  · intro a b hinjective h
    rw [fingerprint_eq, fingerprint_eq] at h
    exact same_of_message (hinjective (.inl rfl) (.inr rfl) (hash_of_fingerprint h))

def unitWeight : F64 := ⟨0x3ff0000000000000⟩

def fixedPolicy (cachedInput : F64) : AccountingPolicy :=
  ⟨.fixed 100, ⟨unitWeight, unitWeight, cachedInput, unitWeight, unitWeight⟩, ⟨"k", by decide⟩⟩

def minuteAndSecond : Held Budget := ⟨[⟨60000, 10⟩, ⟨1000, 2⟩], by decide⟩

def secondAndMinute : Held Budget := ⟨[⟨1000, 2⟩, ⟨60000, 10⟩], by decide⟩

/-- Budgets in another order and a negative zero leave the fingerprint as it is. -/
theorem reordered_budgets_same :
    (AccountingConfig.slidingWindow minuteAndSecond 30000 1024 64 (fixedPolicy ⟨0⟩)).Same
      (.slidingWindow secondAndMinute 30000 1024 64 (fixedPolicy ⟨0x8000000000000000⟩)) := by
  refine (fingerprints_separate_configurations id).2 _ _ Function.injective_id.injOn ?_
  have hbudgets : canonicalBudgets minuteAndSecond.1 = canonicalBudgets secondAndMinute.1 :=
    canonicalBudgets_perm (List.Perm.swap _ _ [])
  have hshared : digestShared 30000 1024 64 (fixedPolicy ⟨0⟩) =
      digestShared 30000 1024 64 (fixedPolicy ⟨0x8000000000000000⟩) := by decide
  rw [fingerprint_eq, fingerprint_eq, AccountingConfig.message, AccountingConfig.message,
    slidingWindowConfig, slidingWindowConfig, hbudgets, hshared]

end Accounting

end ConfigFingerprints
