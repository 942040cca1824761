import Mathlib.Algebra.Order.BigOperators.Group.List
import Mathlib.Algebra.Order.Ring.Nat
import PraxisAi.JsonValues

/-! # The allowance of retained tool results

Every call of a batch leaves one result. A result over its share of the allowance is replaced by an
error record, which still carries the identifiers of the call. -/
namespace RetainedResults

open List
open JsonValues

section Results

structure McpCallResult where
  message : Json
  outputItem : Json

/-- The message is kept twice, for replay and for storage. -/
def McpCallResult.retainedBytes (result : McpCallResult) : ℕ :=
  result.message.size * 2 + result.outputItem.size

def optionalText : Option String → Json
  | some text => .str text
  | none => .null

def strField (call : Json) (field : String) : Option String := (call.get? field).bind Json.asStr

def approvalRequestId (call : Json) : Option String := strField call "approval_request_id"

def outputMessage (callId output : String) : Json :=
  .obj [("type", .str "function_call_output"), ("call_id", .str callId), ("output", .str output)]

def callItem (callId serverLabel toolName arguments output : String) (error : Option String)
    (approval : Option String) : Json :=
  .obj ([("type", .str "mcp_call"), ("id", .str callId),
    ("approval_request_id", optionalText approval), ("server_label", .str serverLabel),
    ("name", .str toolName), ("arguments", .str arguments), ("output", .str output)] ++
    error.toList.map fun text => ("error", .str text))

def buildErrorResult (callId serverLabel toolName arguments errorMessage : String)
    (approval : Option String) : McpCallResult :=
  ⟨outputMessage callId ("Error: " ++ errorMessage),
    callItem callId serverLabel toolName arguments "" (some errorMessage) approval⟩

def buildSuccessResult (callId serverLabel toolName arguments outputText : String)
    (isError : Bool) (approval : Option String) : McpCallResult :=
  ⟨outputMessage callId (if isError then "Error: " ++ outputText else outputText),
    callItem callId serverLabel toolName arguments outputText
      (if isError then some outputText else none) approval⟩

end Results

section Calls

/-- What a server returns: texts, or blocks of which some are not text, as they serialize. -/
inductive Content where
  | texts (blocks : List String)
  | structured (rendered : Except String String)

def tooLarge : String := "MCP tool result exceeded the configured per-result byte limit"

def joinTexts (maxResultBytes : ℕ) : String → List String → Except String String
  | output, [] => .ok output
  | output, text :: rest =>
    let separator := if output.isEmpty then "" else "\n"
    if maxResultBytes < output.utf8ByteSize + separator.utf8ByteSize + text.utf8ByteSize then
      .error tooLarge
    else joinTexts maxResultBytes (output ++ separator ++ text) rest

def contentBlocksToOutput (maxResultBytes : ℕ) : Content → Except String String
  | .texts blocks => joinTexts maxResultBytes "" blocks
  | .structured (.error error) =>
    .error ("failed to serialize MCP content blocks: " ++ error)
  | .structured (.ok output) =>
    if maxResultBytes < output.utf8ByteSize then .error tooLarge else .ok output

/-- How a call ends at the server: with content, with a failure, or in a panic. -/
inductive Reply where
  | completed (content : Content) (isError : Bool)
  | failed (error : String)
  | panicked

inductive McpToolMatch where
  | unique (label toolName : String) (entry : Json)
  | ambiguous (count : ℕ)

/-- The resolved tools by encoded name, and the reader of argument texts. -/
structure Tools where
  find : String → Option McpToolMatch
  fromStr : String → Except String Json

def normalizeArguments (tools : Tools) : Json → Except String String
  | .str text =>
    match tools.fromStr text with
    | .ok _ => .ok text
    | .error error => .error ("malformed tool arguments: " ++ error)
  | other => .ok other.text

def callIdOf (call : Json) : String :=
  (((call.get? "call_id").or (call.get? "id")).bind Json.asStr).getD "unknown"

def resultPayloadLimit (retainedResultLimit : ℕ) : ℕ := retainedResultLimit / 4

/-- None for a call that cannot be made, and the panic of a call that was. -/
def executeSingleCall (tools : Tools) (maxResultBytes : ℕ) (call : Json) (reply : Reply) :
    Except Unit (Option McpCallResult) :=
  match strField call "name" with
  | none => .ok none
  | some encodedName =>
    match tools.find encodedName with
    | none => .ok none
    | some (.ambiguous count) =>
      .ok (some (buildErrorResult (callIdOf call) "unknown" encodedName ""
        ("ambiguous tool name: " ++ toString count ++ " servers expose '" ++ encodedName ++ "'")
        (approvalRequestId call)))
    | some (.unique _ toolName entry) =>
      match strField entry "server_url" with
      | none => .ok none
      | some _ =>
        let label := (strField entry "server_label").getD "unknown"
        let raw := (call.get? "arguments").getD (.obj [])
        match normalizeArguments tools raw with
        | .error error =>
          .ok (some (buildErrorResult (callIdOf call) label toolName (raw.asStr.getD "") error
            (approvalRequestId call)))
        | .ok arguments =>
          if resultPayloadLimit maxResultBytes = 0 then
            .ok (some (buildErrorResult (callIdOf call) label toolName arguments
              "MCP result allowance is too small to retain a result" (approvalRequestId call)))
          else
            match reply with
            | .panicked => .error ()
            | .failed error =>
              .ok (some (buildErrorResult (callIdOf call) label toolName arguments error
                (approvalRequestId call)))
            | .completed content isError =>
              match contentBlocksToOutput (resultPayloadLimit maxResultBytes) content with
              | .ok output =>
                .ok (some (buildSuccessResult (callIdOf call) label toolName arguments output
                  isError (approvalRequestId call)))
              | .error error =>
                .ok (some (buildErrorResult (callIdOf call) label toolName arguments error
                  (approvalRequestId call)))

def errorResultForDroppedCall (call : Json) (reason : String) : McpCallResult :=
  buildErrorResult (callIdOf call) "unknown" ((strField call "name").getD "unknown") "" reason
    (approvalRequestId call)

end Calls

section Limits

def minRetainedResultBytes : ℕ := 1024

def boundedIdentity (call : Json) (field : String) : Option String :=
  (strField call field).filter fun value => value.utf8ByteSize ≤ 64

/-- The identifiers that the replacement of a result keeps. -/
def fallbackId (call : Json) : String :=
  ((boundedIdentity call "call_id").or (boundedIdentity call "id")).getD "unknown"

def fallbackName (call : Json) : String := (boundedIdentity call "name").getD "unknown"

def limitError : String := "MCP tool result exceeded the configured retained-byte limit"

def fallback (call : Json) : McpCallResult :=
  buildErrorResult (fallbackId call) "unknown" (fallbackName call) "" limitError
    (approvalRequestId call)

def fitResultOrLimitError (call : Json) (result : McpCallResult) (retainedLimit : ℕ) :
    McpCallResult :=
  if result.retainedBytes ≤ retainedLimit then result else fallback call

structure Options where
  parallel : Bool
  maxParallelCalls : ℕ
  maxResultBytes : ℕ
  maxTotalResultBytes : ℕ

/-- What one call gives before it is fitted; nothing ends in a panic when calls run in parallel. -/
def settle (tools : Tools) (limit : ℕ) (call : Json × Reply) : McpCallResult :=
  match executeSingleCall tools limit call.1 call.2 with
  | .ok (some result) => result
  | .ok none => errorResultForDroppedCall call.1 "internal error: call produced no result"
  | .error () => errorResultForDroppedCall call.1 "internal error: call future panicked"

def fitted (tools : Tools) (limit : ℕ) (call : Json × Reply) : McpCallResult :=
  fitResultOrLimitError call.1 (settle tools limit call) limit

/-- One group of calls after the other; the fuel is the number of calls. -/
def executeParallel (tools : Tools) (limit maxParallelCalls : ℕ) :
    ℕ → List (Json × Reply) → List McpCallResult
  | 0, _ => []
  | fuel + 1, calls =>
    if calls = [] then []
    else
      let chunkSize := min calls.length maxParallelCalls
      (calls.take chunkSize).map (fitted tools limit) ++
        executeParallel tools limit maxParallelCalls fuel (calls.drop chunkSize)

/-- One call after the other; a panic is not caught. -/
def executeSequential (tools : Tools) (limit : ℕ) :
    List (Json × Reply) → Except Unit (List McpCallResult)
  | [] => .ok []
  | call :: rest =>
    match executeSingleCall tools limit call.1 call.2 with
    | .error () => .error ()
    | .ok _ => (executeSequential tools limit rest).map (fitted tools limit call :: ·)

def perCallLimit (options : Options) (count : ℕ) : ℕ :=
  min options.maxResultBytes (options.maxTotalResultBytes / max count 1)

inductive Ending where
  | refused
  | panicked
  | returned (results : List McpCallResult)

def executeMcpCalls (tools : Tools) (options : Options) (calls : List (Json × Reply)) : Ending :=
  if options.maxResultBytes < minRetainedResultBytes ∨
      options.maxTotalResultBytes < calls.length * minRetainedResultBytes ∨
      options.maxParallelCalls = 0 then .refused
  else
    let limit := perCallLimit options calls.length
    if options.parallel then
      .returned (executeParallel tools limit options.maxParallelCalls calls.length calls)
    else
      match executeSequential tools limit calls with
      | .ok results => .returned results
      | .error () => .panicked

end Limits

section Bounds

variable {tools : Tools} {options : Options} {calls : List (Json × Reply)} {limit : ℕ}
  {results : List McpCallResult}

theorem executeParallel_eq {maxParallelCalls : ℕ} (hmax : maxParallelCalls ≠ 0) (fuel : ℕ)
    (hfuel : calls.length ≤ fuel) :
    executeParallel tools limit maxParallelCalls fuel calls = calls.map (fitted tools limit) := by
  induction fuel generalizing calls with
  | zero => rw [length_eq_zero_iff.mp (Nat.le_zero.mp hfuel), executeParallel, map_nil]
  | succ fuel ih =>
    rw [executeParallel]
    by_cases hempty : calls = []
    · rw [if_pos hempty, hempty, map_nil]
    · have hlength := length_pos_iff.mpr hempty
      rw [if_neg hempty]
      dsimp only
      rw [ih (by rw [length_drop]; omega), ← map_append, take_append_drop]

theorem executeSequential_eq (h : executeSequential tools limit calls = .ok results) :
    results = calls.map (fitted tools limit) := by
  induction calls generalizing results with
  | nil =>
    cases h
    rfl
  | cons call rest ih =>
    rw [executeSequential] at h
    rcases hcall : executeSingleCall tools limit call.1 call.2 with ⟨⟨⟩⟩ | result
    · rw [hcall] at h
      cases h
    · rw [hcall] at h
      dsimp only at h
      rcases hrest : executeSequential tools limit rest with ⟨⟨⟩⟩ | tail
      · rw [hrest] at h
        cases h
      · rw [hrest] at h
        cases h
        rw [ih hrest, map_cons]

/-- A batch that returns has one result for every call, in the order of the calls. -/
theorem results_eq (h : executeMcpCalls tools options calls = .returned results) :
    results = calls.map (fitted tools (perCallLimit options calls.length)) := by
  rw [executeMcpCalls] at h
  dsimp only at h
  by_cases hrefused : options.maxResultBytes < minRetainedResultBytes ∨
      options.maxTotalResultBytes < calls.length * minRetainedResultBytes ∨
      options.maxParallelCalls = 0
  · rw [if_pos hrefused] at h
    cases h
  · rw [if_neg hrefused] at h
    by_cases hparallel : options.parallel = true
    · rw [if_pos hparallel] at h
      cases h
      apply executeParallel_eq _ _ (Nat.le_refl _)
      intro hzero
      exact hrefused (.inr (.inr hzero))
    · rw [if_neg hparallel] at h
      rcases hresults : executeSequential tools (perCallLimit options calls.length) calls with
        ⟨⟨⟩⟩ | list
      · rw [hresults] at h
        cases h
      · rw [hresults] at h
        cases h
        exact executeSequential_eq hresults

/-- What the replacement of a result takes: the identifier three times, and the name and the
approval once, all of them escaped. -/
def fallbackBytes (call : Json) : ℕ :=
  418 + 3 * Json.quotedSize (fallbackId call) + Json.quotedSize (fallbackName call) +
    (optionalText (approvalRequestId call)).size

theorem retainedBytes_fallback (call : Json) :
    (fallback call).retainedBytes = fallbackBytes call := by
  rw [fallback, buildErrorResult, McpCallResult.retainedBytes, outputMessage, callItem,
    Option.toList_some, map_singleton]
  simp only [cons_append, nil_append, Json.size_obj, Json.fieldSize, Json.size_str,
    map_cons, map_nil, sum_cons, sum_nil]
  have hkeys : Json.quotedSize "type" = 6 ∧ Json.quotedSize "function_call_output" = 22 ∧
      Json.quotedSize "call_id" = 9 ∧ Json.quotedSize "output" = 8 ∧
      Json.quotedSize ("Error: " ++ limitError) = 68 ∧ Json.quotedSize "mcp_call" = 10 ∧
      Json.quotedSize "id" = 4 ∧ Json.quotedSize "approval_request_id" = 21 ∧
      Json.quotedSize "server_label" = 14 ∧ Json.quotedSize "unknown" = 9 ∧
      Json.quotedSize "name" = 6 ∧ Json.quotedSize "arguments" = 11 ∧
      Json.quotedSize "" = 2 ∧ Json.quotedSize "error" = 7 ∧
      Json.quotedSize limitError = 61 := by decide +kernel
  rw [fallbackBytes]
  omega

theorem fitted_le_iff (call : Json × Reply) :
    (fitted tools limit call).retainedBytes ≤ limit ↔
      (settle tools limit call).retainedBytes ≤ limit ∨ fallbackBytes call.1 ≤ limit := by
  rw [fitted, fitResultOrLimitError]
  by_cases hfits : (settle tools limit call).retainedBytes ≤ limit
  · rw [if_pos hfits]
    exact ⟨fun _ => .inl hfits, fun _ => hfits⟩
  · rw [if_neg hfits, retainedBytes_fallback]
    exact ⟨.inr, fun h => h.resolve_left hfits⟩

theorem sum_le_total (options : Options) (results : List McpCallResult)
    (h : ∀ result ∈ results,
      result.retainedBytes ≤ perCallLimit options results.length) :
    (results.map McpCallResult.retainedBytes).sum ≤ options.maxTotalResultBytes := by
  have hsum := sum_le_card_nsmul (results.map McpCallResult.retainedBytes)
    (perCallLimit options results.length) (by simpa using h)
  rw [length_map, Nat.nsmul_eq_mul] at hsum
  rcases Nat.eq_zero_or_pos results.length with hzero | hpos
  · rw [hzero, Nat.zero_mul] at hsum
    omega
  · have hshare : perCallLimit options results.length ≤
        options.maxTotalResultBytes / results.length := by
      rw [perCallLimit, Nat.max_eq_left hpos]
      exact Nat.min_le_right _ _
    calc (results.map McpCallResult.retainedBytes).sum
        ≤ results.length * perCallLimit options results.length := hsum
      _ ≤ results.length * (options.maxTotalResultBytes / results.length) :=
        Nat.mul_le_mul_left _ hshare
      _ ≤ options.maxTotalResultBytes := Nat.mul_div_le _ _

/-- Every call has one result. They stay within the allowance exactly when every call whose result
is over its share has identifiers that leave room for the replacement. -/
theorem results_within_allowance_iff (tools : Tools) (options : Options)
    (calls : List (Json × Reply)) (results : List McpCallResult)
    (h : executeMcpCalls tools options calls = .returned results) :
    results = calls.map (fitted tools (perCallLimit options calls.length)) ∧
    ((∀ result ∈ results, result.retainedBytes ≤ perCallLimit options calls.length) ∧
        (results.map McpCallResult.retainedBytes).sum ≤ options.maxTotalResultBytes ↔
      ∀ call ∈ calls,
        (settle tools (perCallLimit options calls.length) call).retainedBytes ≤
          perCallLimit options calls.length ∨
        fallbackBytes call.1 ≤ perCallLimit options calls.length) := by
  have hresults := results_eq h
  have hlength : results.length = calls.length := by rw [hresults, length_map]
  have heach : (∀ result ∈ results, result.retainedBytes ≤ perCallLimit options calls.length) ↔
      ∀ call ∈ calls, (fitted tools (perCallLimit options calls.length) call).retainedBytes ≤
        perCallLimit options calls.length := by
    rw [hresults]
    exact forall_mem_map
  refine ⟨hresults, ?_⟩
  constructor
  · rintro ⟨hbounded, -⟩ call hcall
    exact (fitted_le_iff call).mp (heach.mp hbounded call hcall)
  · intro hroom
    have hbounded := heach.mpr fun call hcall => (fitted_le_iff call).mpr (hroom call hcall)
    exact ⟨hbounded, sum_le_total options results (hlength ▸ hbounded)⟩

def oneTool : Tools where
  find _ := some (.unique "docs" "search" (.obj [("server_url", .str "http://docs")]))
  fromStr _ := .ok (.obj [])

def oneCall (callId text : String) : Json × Reply :=
  (.obj [("name", .str "docs__search"), ("call_id", .str callId)],
    .completed (.texts [text]) false)

def controls : String := String.ofList (replicate 64 '\x01')

/-- A result that fits, and one that is over its share and is replaced. -/
def twoCalls : List (Json × Reply) :=
  [oneCall "call_1" "found", oneCall "call_2" controls]

def smallest (count : ℕ) : Options := ⟨false, 1, 1024, count * 1024⟩

theorem plain_identifiers_within_allowance :
    ∃ results, executeMcpCalls oneTool (smallest 2) twoCalls = .returned results ∧
      1024 < (settle oneTool 1024 (oneCall "call_2" controls)).retainedBytes ∧
      (results.map McpCallResult.retainedBytes).sum ≤ 2048 := by
  refine ⟨_, rfl, ?_, ?_⟩
  · decide +kernel
  refine ((results_within_allowance_iff oneTool (smallest 2) twoCalls _ rfl).2.mpr ?_).2
  intro call hcall
  right
  revert call
  decide +kernel

/-- An identifier of sixty-four control characters takes six bytes for each of them, three times. -/
theorem control_characters_exceed_allowance :
    ∃ results, executeMcpCalls oneTool (smallest 1) [oneCall controls "found"] =
        .returned results ∧
      1024 < (results.map McpCallResult.retainedBytes).sum := by
  refine ⟨_, rfl, ?_⟩
  decide +kernel

end Bounds

end RetainedResults
