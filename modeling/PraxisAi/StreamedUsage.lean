import Mathlib.Data.List.Induction
import PraxisAi.FiniteTranslation
import PraxisAi.SaturatingArithmetic

/-! # The token usage of a streamed answer

Every event is tried as a whole usage report, which replaces all counts, and otherwise as a partial
one, which is merged by maximum. At the end the counts are published, with the total of the last
whole report if there was one. -/
namespace StreamedUsage

open List
open JsonValues FiniteTranslation SaturatingArithmetic

section Readers

variable {α : Type}

/-- The members of a record: by name in an object, where none may stand twice, or by place in an
array. -/
def members (names : List String) : Json → Option (List (Option Json))
  | .obj fields =>
    if names.all fun name => (fields.filter fun field => field.1 = name).length ≤ 1 then
      some (names.map fun name => fields.lookup name)
    else none
  | .arr items => if items.length = names.length then some (items.map some) else none
  | _ => none

def required (read : Json → Option α) : Option Json → Option α
  | none => none
  | some value => read value

def optional (read : Json → Option α) : Option Json → Option (Option α)
  | none | some .null => some none
  | some value => (read value).map some

def readDetails (value : Json) : Option (Option ℕ) :=
  match members ["thinking_tokens"] value with
  | some [thinking] => optional asU64 thinking
  | _ => none

structure TokenUsage where
  input : ℕ
  output : ℕ
  total : ℕ
  cacheRead : Option ℕ
  cacheWrite : Option ℕ
  reasoning : Option ℕ
  deriving DecidableEq

/-- Cached tokens count as input. -/
def actualInput (input : ℕ) (cacheWrite cacheRead : Option ℕ) : ℕ :=
  satAdd u64Max (satAdd u64Max input (cacheWrite.getD 0)) (cacheRead.getD 0)

def readAnthropicUsage (value : Json) : Option TokenUsage :=
  match members ["input_tokens", "output_tokens", "cache_creation_input_tokens",
      "cache_read_input_tokens", "output_tokens_details"] value with
  | some [input, output, write, read, details] => do
    let input ← required asU64 input
    let output ← required asU64 output
    let cacheWrite ← optional asU64 write
    let cacheRead ← optional asU64 read
    let details ← optional readDetails details
    let actual := actualInput input cacheWrite cacheRead
    some ⟨actual, output, satAdd u64Max actual output, cacheRead, cacheWrite, details.join⟩
  | _ => none

/-- A whole report; a payload that is no JSON text reports nothing. -/
def parseAnthropic (payload : Option Json) : Option TokenUsage :=
  match payload.bind (members ["usage"]) with
  | some [usage] => (optional readAnthropicUsage usage).join
  | _ => none

structure StreamingTokens where
  input : Option ℕ
  output : Option ℕ
  cacheRead : Option ℕ
  cacheWrite : Option ℕ
  reasoning : Option ℕ
  deriving DecidableEq

def StreamingTokens.none : StreamingTokens := ⟨.none, .none, .none, .none, .none⟩

def readInputUsage (value : Json) : Option StreamingTokens :=
  match members ["input_tokens", "cache_creation_input_tokens",
      "cache_read_input_tokens"] value with
  | some [input, write, read] => do
    let input ← required asU64 input
    let cacheWrite ← optional asU64 write
    let cacheRead ← optional asU64 read
    some { StreamingTokens.none with
      input := some (actualInput input cacheWrite cacheRead), cacheRead, cacheWrite }
  | _ => none

def readStartMessage (value : Json) : Option (Option StreamingTokens) :=
  match members ["usage"] value with
  | some [usage] => optional readInputUsage usage
  | _ => none

def parseAnthropicMessageStart (payload : Option Json) : Option StreamingTokens :=
  match payload.bind (members ["message", "type"]) with
  | some [message, type] => do
    let message ← optional readStartMessage message
    let type ← optional Json.asStr type
    if type = some "message_start" then message.join else none
  | _ => none

def readDeltaUsage (value : Json) : Option StreamingTokens :=
  match members ["output_tokens", "output_tokens_details"] value with
  | some [output, details] => do
    let output ← required asU64 output
    let details ← optional readDetails details
    some { StreamingTokens.none with output := some output, reasoning := details.join }
  | _ => none

/-- The usage of a `message_delta` event, by one of the readers above. -/
def parseMessageDelta (read : Json → Option StreamingTokens) (payload : Option Json) :
    Option StreamingTokens :=
  match payload.bind (members ["type", "usage"]) with
  | some [type, usage] => do
    let type ← optional Json.asStr type
    let usage ← optional read usage
    if type = some "message_delta" then usage else none
  | _ => none

def parseAnthropicEvent (payload : Option Json) : StreamingTokens :=
  match parseAnthropicMessageStart payload with
  | some tokens => tokens
  | none => (parseMessageDelta readDeltaUsage payload).getD .none

end Readers

section Counts

structure Counts where
  input : Option ℕ
  output : Option ℕ
  total : Option ℕ
  cacheRead : Option ℕ
  cacheWrite : Option ℕ
  reasoning : Option ℕ
  deriving DecidableEq

def Counts.empty : Counts := ⟨none, none, none, none, none, none⟩

def mergeReportedCount (existing reported : Option ℕ) : Option ℕ :=
  match reported with
  | none => existing
  | some value => some (max (existing.getD 0) value)

def processSsePayload (counts : Counts) (payload : Option Json) : Counts :=
  match parseAnthropic payload with
  | some usage =>
    { input := some usage.input
      output := some usage.output
      total := some usage.total
      cacheRead := usage.cacheRead.or counts.cacheRead
      cacheWrite := usage.cacheWrite.or counts.cacheWrite
      reasoning := usage.reasoning.or counts.reasoning }
  | none =>
    let tokens := parseAnthropicEvent payload
    { counts with
      input := mergeReportedCount counts.input tokens.input
      output := mergeReportedCount counts.output tokens.output
      cacheRead := mergeReportedCount counts.cacheRead tokens.cacheRead
      cacheWrite := mergeReportedCount counts.cacheWrite tokens.cacheWrite
      reasoning := mergeReportedCount counts.reasoning tokens.reasoning }

def finalizeStreamingCounts (counts : Counts) : Option TokenUsage :=
  if counts.input.isSome || counts.output.isSome then
    let input := counts.input.getD 0
    let output := counts.output.getD 0
    some ⟨input, output, counts.total.getD (satAdd u64Max input output), counts.cacheRead,
      counts.cacheWrite, counts.reasoning⟩
  else none

def countsAfter (payloads : List (Option Json)) : Counts :=
  payloads.foldl processSsePayload .empty

def published (payloads : List (Option Json)) : Option (ℕ × ℕ × ℕ) :=
  (finalizeStreamingCounts (countsAfter payloads)).map fun usage =>
    (usage.input, usage.output, usage.total)

end Counts

section Reports

def reportedInput (payload : Option Json) : Option ℕ :=
  (parseAnthropicEvent payload).input.or
    ((parseMessageDelta readInputUsage payload).bind (·.input))

def reportedOutput (payload : Option Json) : Option ℕ := (parseAnthropicEvent payload).output

def peak (counts : List (Option ℕ)) : ℕ := (counts.map fun count => count.getD 0).foldl max 0

def peakInput (payloads : List (Option Json)) : ℕ := peak (payloads.map reportedInput)

def peakOutput (payloads : List (Option Json)) : ℕ := peak (payloads.map reportedOutput)

def peakPartialInput (payloads : List (Option Json)) : ℕ :=
  peak (payloads.map fun payload => (parseAnthropicEvent payload).input)

def Partial (payloads : List (Option Json)) : Prop :=
  ∀ payload ∈ payloads, parseAnthropic payload = none

/-- The last whole report, together with what comes behind it, has the peaks of the whole stream,
and its own total is theirs; or there is no whole report and only `message_start` events report
the largest input. -/
def PeaksKept (payloads : List (Option Json)) : Prop :=
  (∃ before payload usage after, payloads = before ++ payload :: after ∧
    parseAnthropic payload = some usage ∧ Partial after ∧
    max usage.input (peakPartialInput after) = peakInput payloads ∧
    max usage.output (peakOutput after) = peakOutput payloads ∧
    usage.total = satAdd u64Max (peakInput payloads) (peakOutput payloads)) ∨
  (Partial payloads ∧
    (∃ payload ∈ payloads, ((parseAnthropicEvent payload).input.isSome ||
      (parseAnthropicEvent payload).output.isSome) = true) ∧
    peakPartialInput payloads = peakInput payloads)

theorem peak_concat (counts : List (Option ℕ)) (count : Option ℕ) :
    peak (counts ++ [count]) = max (peak counts) (count.getD 0) := by
  rw [peak, map_append, foldl_append]
  rfl

theorem getD_mergeReportedCount (existing reported : Option ℕ) :
    (mergeReportedCount existing reported).getD 0 = max (existing.getD 0) (reported.getD 0) := by
  cases reported with
  | none => exact (Nat.max_zero _).symm
  | some value => rfl

theorem isSome_mergeReportedCount (existing reported : Option ℕ) :
    (mergeReportedCount existing reported).isSome = (existing.isSome || reported.isSome) := by
  cases reported with
  | none => exact (Bool.or_false _).symm
  | some value => exact (Bool.or_true _).symm

/-- Partial reports raise the counts to their peaks and leave the total. -/
structure Raised (counts later : Counts) (payloads : List (Option Json)) : Prop where
  input : later.input.getD 0 = max (counts.input.getD 0) (peakPartialInput payloads)
  output : later.output.getD 0 = max (counts.output.getD 0) (peakOutput payloads)
  total : later.total = counts.total
  any : (later.input.isSome || later.output.isSome) = true ↔
    (counts.input.isSome || counts.output.isSome) = true ∨
      ∃ payload ∈ payloads, ((parseAnthropicEvent payload).input.isSome ||
        (parseAnthropicEvent payload).output.isSome) = true

theorem raised_of_partial (counts : Counts) {payloads : List (Option Json)} (h : Partial payloads) :
    Raised counts (payloads.foldl processSsePayload counts) payloads := by
  induction payloads using List.reverseRecOn with
  | nil => exact ⟨(Nat.max_zero _).symm, (Nat.max_zero _).symm, rfl, by simp⟩
  | append_singleton payloads payload ih =>
    have hraised := ih fun other hother => h other (mem_append_left _ hother)
    have hpayload := h payload (mem_append_right _ mem_cons_self)
    rw [foldl_append, foldl_cons, foldl_nil, processSsePayload, hpayload]
    dsimp only
    refine ⟨?_, ?_, hraised.total, ?_⟩
    · rw [getD_mergeReportedCount, hraised.input, peakPartialInput, peakPartialInput,
        map_append, map_singleton, peak_concat, Nat.max_assoc]
    · rw [getD_mergeReportedCount, hraised.output, peakOutput, peakOutput, map_append,
        map_singleton, peak_concat, Nat.max_assoc, reportedOutput]
    · have hany := hraised.any
      simp only [isSome_mergeReportedCount, Bool.or_eq_true, mem_append, mem_singleton,
        or_and_right, exists_or, exists_eq_left] at hany ⊢
      rw [or_or_or_comm, hany, or_assoc]

theorem partial_or_last (payloads : List (Option Json)) :
    Partial payloads ∨ ∃ before payload usage after, payloads = before ++ payload :: after ∧
      parseAnthropic payload = some usage ∧ Partial after := by
  induction payloads with
  | nil => exact .inl fun payload hmem => absurd hmem not_mem_nil
  | cons payload rest ih =>
    rcases ih with hrest | ⟨before, other, usage, after, rfl, hother, hafter⟩
    · rcases hpayload : parseAnthropic payload with _ | usage
      · left
        intro other hmem
        rcases mem_cons.mp hmem with rfl | hmem
        · exact hpayload
        · exact hrest other hmem
      · exact .inr ⟨[], payload, usage, rest, rfl, hpayload, hrest⟩
    · exact .inr ⟨payload :: before, other, usage, after, rfl, hother, hafter⟩

theorem published_of_last {before after : List (Option Json)} {payload : Option Json}
    {usage : TokenUsage} (husage : parseAnthropic payload = some usage) (hafter : Partial after) :
    published (before ++ payload :: after) = some (max usage.input (peakPartialInput after),
      max usage.output (peakOutput after), usage.total) := by
  have hraised := raised_of_partial (processSsePayload (countsAfter before) payload) hafter
  have hcounts : countsAfter (before ++ payload :: after) =
      after.foldl processSsePayload (processSsePayload (countsAfter before) payload) := by
    rw [countsAfter, foldl_append, foldl_cons]
    rfl
  have hstate : (processSsePayload (countsAfter before) payload).input = some usage.input ∧
      (processSsePayload (countsAfter before) payload).output = some usage.output ∧
      (processSsePayload (countsAfter before) payload).total = some usage.total := by
    rw [processSsePayload, husage]
    exact ⟨rfl, rfl, rfl⟩
  obtain ⟨hinput, houtput, htotal⟩ := hstate
  have hany := hraised.any.mpr (.inl (by rw [hinput]; rfl))
  rw [published, hcounts, finalizeStreamingCounts, if_pos hany]
  dsimp only [Option.map_some]
  rw [hraised.input, hraised.output, hraised.total, hinput, houtput, htotal]
  rfl

theorem published_of_unfinished {payloads : List (Option Json)} (h : Partial payloads) :
    published payloads =
      if (∃ payload ∈ payloads, ((parseAnthropicEvent payload).input.isSome ||
        (parseAnthropicEvent payload).output.isSome) = true) then
        some (peakPartialInput payloads, peakOutput payloads,
          satAdd u64Max (peakPartialInput payloads) (peakOutput payloads))
      else none := by
  have hraised := raised_of_partial .empty h
  have hempty : (Counts.empty.input.isSome || Counts.empty.output.isSome) = false := rfl
  rw [published, countsAfter, finalizeStreamingCounts]
  by_cases hany : ∃ payload ∈ payloads, ((parseAnthropicEvent payload).input.isSome ||
      (parseAnthropicEvent payload).output.isSome) = true
  · rw [if_pos hany, if_pos (hraised.any.mpr (.inr hany))]
    dsimp only [Option.map_some]
    rw [hraised.input, hraised.output, hraised.total]
    simp [Counts.empty]
  · rw [if_neg hany, if_neg]
    · rfl
    · intro hsome
      rcases hraised.any.mp hsome with hsome | hsome
      · rw [hempty] at hsome
        cases hsome
      · exact hany hsome

/-- The published counts are the peaks of what the events report exactly when the whole reports
keep them. -/
theorem published_peaks_iff (payloads : List (Option Json)) :
    published payloads = some (peakInput payloads, peakOutput payloads,
      satAdd u64Max (peakInput payloads) (peakOutput payloads)) ↔ PeaksKept payloads := by
  constructor
  · intro hpublished
    rcases partial_or_last payloads with hopen | ⟨before, payload, usage, after, hsplit, husage,
      hafter⟩
    · rw [published_of_unfinished hopen] at hpublished
      split at hpublished
      · rename_i hany
        obtain ⟨hinput, -⟩ := Prod.mk.inj (Option.some.inj hpublished)
        exact .inr ⟨hopen, hany, hinput⟩
      · cases hpublished
    · have hlast := hpublished
      rw [hsplit, published_of_last husage hafter, ← hsplit] at hlast
      obtain ⟨hinput, hrest⟩ := Prod.mk.inj (Option.some.inj hlast)
      obtain ⟨houtput, htotal⟩ := Prod.mk.inj hrest
      exact .inl ⟨before, payload, usage, after, hsplit, husage, hafter, hinput, houtput, htotal⟩
  · rintro (⟨before, payload, usage, after, hsplit, husage, hafter, hinput, houtput, htotal⟩ |
      ⟨hopen, hany, hinput⟩)
    · rw [← htotal, ← houtput, ← hinput, hsplit, published_of_last husage hafter]
    · rw [published_of_unfinished hopen, if_pos hany, hinput]

def deltaEvent (usage : List (String × Json)) : Option Json :=
  some (.obj [("type", .str "message_delta"), ("usage", .obj usage)])

/-- A whole report, then more output: the total stays that of the whole report. -/
theorem total_goes_stale :
    published [deltaEvent [("input_tokens", .num "100"), ("output_tokens", .num "1")],
      deltaEvent [("output_tokens", .num "5")]] = some (100, 5, 101) ∧
    peakInput [deltaEvent [("input_tokens", .num "100"), ("output_tokens", .num "1")],
      deltaEvent [("output_tokens", .num "5")]] = 100 ∧
    peakOutput [deltaEvent [("input_tokens", .num "100"), ("output_tokens", .num "1")],
      deltaEvent [("output_tokens", .num "5")]] = 5 := by
  decide +kernel

end Reports

end StreamedUsage
