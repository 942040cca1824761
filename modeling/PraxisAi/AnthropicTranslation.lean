import PraxisAi.ChunkedRuns
import PraxisAi.DecimalText
import PraxisAi.FiniteTranslation
import PraxisAi.KeyedMaps
import PraxisAi.SseFrames
import Mathlib.Data.List.Sort

/-! # Chat completion chunks as message events

The streaming translation towards Anthropic clients: text and tool calls of the first choice
become numbered content blocks, the sentinel closes what is open. What the filter keeps between
calls is its metadata, here with typed fields. Arithmetic is checked in the release build, so an
overflow ends the process. -/
namespace AnthropicTranslation

open SseFrames JsonValues FiniteTranslation KeyedMaps DecimalText

section Events

inductive Block where
  | text
  | toolUse (id name : String)
  deriving DecidableEq

inductive Delta where
  | text (content : String)
  | inputJson (partialJson : String)
  deriving DecidableEq

structure DeltaUsage where
  outputTokens : ℕ
  inputTokens : Option ℕ
  cacheReadInputTokens : Option ℕ
  deriving DecidableEq

inductive StreamEvent where
  | messageStart (id : ℕ) (model : String)
  | contentBlockStart (index : ℕ) (block : Block)
  | contentBlockDelta (index : ℕ) (delta : Delta)
  | contentBlockStop (index : ℕ)
  | messageDelta (stopReason : String) (stopSequence : Option String) (usage : DeltaUsage)
  | messageStop
  | error
  deriving DecidableEq

end Events

section Metadata

inductive Phase where
  | started
  | failed
  deriving DecidableEq

/-- The index of a tool call; calls without one share a key. -/
abbrev ToolCallKey := Option ℕ

structure ToolBlock where
  index : ℕ
  isOpen : Bool
  deriving DecidableEq

structure StreamMetadata where
  phase : Option Phase
  textBlockOpen : Bool
  toolBlocks : KeyedMap ToolCallKey ToolBlock
  toolBlockCount : ℕ
  blockIndex : ℕ
  finishReason : Option String
  stopSequence : Option String
  outputTokens : Option ℕ
  inputTokens : Option ℕ
  cacheReadTokens : Option ℕ

def StreamMetadata.fresh : StreamMetadata :=
  ⟨none, false, ∅, 0, 0, none, none, none, none, none⟩

namespace StreamMetadata

variable (m : StreamMetadata)

def isStreamFailed : Bool := m.phase == some .failed

def isStarted : Bool := m.phase == some .started

def isToolBlockOpen (key : ToolCallKey) : Bool := (m.toolBlocks.lookup key).any ToolBlock.isOpen

def toolBlockIndex (key : ToolCallKey) : Option ℕ := (m.toolBlocks.lookup key).map ToolBlock.index

def withPhase (phase : Phase) : StreamMetadata := { m with phase := some phase }

def withTextBlock (textBlockOpen : Bool) : StreamMetadata := { m with textBlockOpen }

def withToolBlock (key : ToolCallKey) (block : ToolBlock) : StreamMetadata :=
  { m with toolBlocks := m.toolBlocks.insert key block }

def withBlockIndex (blockIndex : ℕ) : StreamMetadata := { m with blockIndex }

def withToolBlockCount (toolBlockCount : ℕ) : StreamMetadata := { m with toolBlockCount }

def openToolBlocks : List ToolCallKey :=
  ((m.toolBlocks.entries.filter fun entry => entry.2.isOpen).insertionSort
    fun a b => a.2.index ≤ b.2.index).map Sigma.fst

end StreamMetadata

end Metadata

inductive Failure where
  | malformedUtf8
  | partialEventTooLarge (limit : ℕ)
  | invalidJson (error : String)
  | notAnObject
  | tooManyToolBlocks (limit : ℕ)
  | overflow
  deriving DecidableEq

abbrev Outcome := Except Failure (List StreamEvent × StreamMetadata)

section Blocks

/-- The block number is a 32-bit counter. -/
def incrementBlockIndex (m : StreamMetadata) : Except Failure StreamMetadata :=
  if m.blockIndex + 1 < 2 ^ 32 then .ok (m.withBlockIndex (m.blockIndex + 1))
  else .error .overflow

def closeTextBlockIfOpen (m : StreamMetadata) : Outcome :=
  if m.textBlockOpen then
    match incrementBlockIndex m with
    | .error e => .error e
    | .ok m' => .ok ([.contentBlockStop m.blockIndex], m'.withTextBlock false)
  else .ok ([], m)

def emitTextDelta (content : String) (m : StreamMetadata) : List StreamEvent × StreamMetadata :=
  let delta := StreamEvent.contentBlockDelta m.blockIndex (.text content)
  if m.textBlockOpen then ([delta], m)
  else ([.contentBlockStart m.blockIndex .text, delta], m.withTextBlock true)

def toolCallKey (tc : Json) : ToolCallKey := (tc.get? "index").bind asU64

def isValidToolUseId (id : String) : Bool :=
  !id.isEmpty && id.toList.all fun c => c.isAlphanum || c == '_' || c == '-'

def extractToolIdAndName (tc : Json) : Option (String × String) :=
  ((tc.get? "id").bind Json.asStr).bind fun id =>
    if isValidToolUseId id then
      ((((tc.get? "function").bind (·.get? "name")).bind Json.asStr).filter (!·.isEmpty)).map
        fun name => (id, name)
    else none

def fail (m : StreamMetadata) : StreamMetadata := m.withPhase .failed

/-- A new block for a call; a call without id or name ends the stream instead. The buffers of the
text are cleared where the blocks are read. -/
def emitToolBlockStart (maxToolBlocks : ℕ) (key : ToolCallKey) (tc : Json) (m : StreamMetadata) :
    Except Failure (Bool × List StreamEvent × StreamMetadata) :=
  if m.toolBlockCount ≥ maxToolBlocks then .error (.tooManyToolBlocks maxToolBlocks)
  else match extractToolIdAndName tc with
    | none => .ok (false, [.error], fail m)
    | some (id, name) =>
      match incrementBlockIndex (m.withToolBlock key ⟨m.blockIndex, true⟩) with
      | .error e => .error e
      | .ok m' =>
        .ok (true, [.contentBlockStart m.blockIndex (.toolUse id name)],
          m'.withToolBlockCount (m.toolBlockCount + 1))

def toolArguments (tc : Json) : Option String :=
  (((tc.get? "function").bind (·.get? "arguments")).bind Json.asStr).filter (!·.isEmpty)

def emitToolArgumentsDelta (key : ToolCallKey) (tc : Json) (m : StreamMetadata) :
    List StreamEvent :=
  match toolArguments tc with
  | none => []
  | some args => [.contentBlockDelta ((m.toolBlockIndex key).getD m.blockIndex) (.inputJson args)]

def transformToolDelta (maxToolBlocks : ℕ) (tc : Json) (m : StreamMetadata) : Outcome :=
  let key := toolCallKey tc
  if m.isToolBlockOpen key then .ok (emitToolArgumentsDelta key tc m, m)
  else match emitToolBlockStart maxToolBlocks key tc m with
    | .error e => .error e
    | .ok (false, events, m') => .ok (events, m')
    | .ok (true, events, m') => .ok (events ++ emitToolArgumentsDelta key tc m', m')

def transformToolDeltas (maxToolBlocks : ℕ) : List Json → StreamMetadata → Outcome
  | [], m => .ok ([], m)
  | tc :: rest, m =>
    ChunkedRuns.resume (transformToolDelta maxToolBlocks tc m) fun m' =>
      if m'.isStreamFailed then .ok ([], m') else transformToolDeltas maxToolBlocks rest m'

def transformDelta (maxToolBlocks : ℕ) (delta : Json) (m : StreamMetadata) : Outcome :=
  let (texts, m) :=
    match (delta.get? "content").bind Json.asStr with
    | some content => emitTextDelta content m
    | none => ([], m)
  ChunkedRuns.resume (.ok (texts, m)) fun m =>
    match (delta.get? "tool_calls").bind Json.asArr with
    | some toolCalls =>
      ChunkedRuns.resume (closeTextBlockIfOpen m) (transformToolDeltas maxToolBlocks toolCalls)
    | none => .ok ([], m)

end Blocks

section Chunks

structure Config where
  maxPartialEventBytes : ℕ
  maxToolBlocks : ℕ
  clientStopSequences : List String

def emitMessageStart (id : ℕ) (model : String) (m : StreamMetadata) :
    List StreamEvent × StreamMetadata :=
  ([.messageStart id model], m.withPhase .started)

def extractFirstChoice (chunk : Json) : Option Json :=
  ((chunk.get? "choices").bind Json.asArr).bind List.head?

def noteFinish (c : Config) (choice : Json) (m : StreamMetadata) : StreamMetadata :=
  let m :=
    match (choice.get? "finish_reason").bind Json.asStr with
    | some reason => { m with finishReason := some reason }
    | none => m
  match (choice.get? "stop_reason").bind Json.asStr with
  | some matched =>
    if c.clientStopSequences.contains matched then { m with stopSequence := some matched } else m
  | none => m

def extractUsageTokens (chunk : Json) (m : StreamMetadata) : StreamMetadata :=
  match chunk.get? "usage" with
  | none => m
  | some usage =>
    let output := (usage.get? "completion_tokens").bind asU64
    let input := (usage.get? "prompt_tokens").bind asU64
    let cached := ((usage.get? "prompt_tokens_details").bind (·.get? "cached_tokens")).bind asU64
    { m with
      outputTokens := output.or m.outputTokens
      inputTokens := input.or m.inputTokens
      cacheReadTokens := cached.or m.cacheReadTokens }

/-- The message id is a time stamp, read when the message starts. -/
def transformChunk (c : Config) (id : ℕ) (chunk : Json) (m : StreamMetadata) : Outcome :=
  let opening :=
    if m.isStarted then ([], m)
    else emitMessageStart id (((chunk.get? "model").bind Json.asStr).getD "") m
  ChunkedRuns.resume (.ok opening) fun m =>
    match extractFirstChoice chunk with
    | none => .ok ([], extractUsageTokens chunk m)
    | some choice =>
      let translated :=
        match choice.get? "delta" with
        | some delta => transformDelta c.maxToolBlocks delta m
        | none => .ok ([], m)
      ChunkedRuns.resume translated fun m =>
        .ok ([], extractUsageTokens chunk (noteFinish c choice m))

def mapStopReason (reason : String) : String :=
  if reason = "tool_calls" then "tool_use"
  else if reason = "length" then "max_tokens"
  else "end_turn"

def collectDeltaUsage (m : StreamMetadata) : DeltaUsage where
  outputTokens := m.outputTokens.getD 0
  inputTokens := m.inputTokens.map fun input =>
    match m.cacheReadTokens with
    | some cached => input - cached
    | none => input
  cacheReadInputTokens := m.cacheReadTokens

def emitMessageDelta (m : StreamMetadata) : StreamEvent :=
  let stopReason :=
    match m.finishReason with
    | some reason =>
      if reason = "stop" ∧ m.stopSequence.isSome then "stop_sequence" else mapStopReason reason
    | none => "end_turn"
  .messageDelta stopReason m.stopSequence (collectDeltaUsage m)

def closeToolBlock (key : ToolCallKey) (m : StreamMetadata) : List StreamEvent × StreamMetadata :=
  match m.toolBlocks.lookup key with
  | some ⟨index, true⟩ => ([.contentBlockStop index], m.withToolBlock key ⟨index, false⟩)
  | _ => ([], m)

def closeToolBlocks : List ToolCallKey → StreamMetadata → List StreamEvent × StreamMetadata
  | [], m => ([], m)
  | key :: rest, m =>
    let (events, m) := closeToolBlock key m
    let (more, m) := closeToolBlocks rest m
    (events ++ more, m)

def emitFinalBlockStop (m : StreamMetadata) : Outcome :=
  ChunkedRuns.resume (closeTextBlockIfOpen m) fun m => .ok (closeToolBlocks m.openToolBlocks m)

/-- The closing events at the sentinel; nothing afterwards records that they were sent. -/
def emitDone (id : ℕ) (m : StreamMetadata) : Outcome :=
  if m.isStreamFailed then .ok ([], m)
  else
    let opening := if m.isStarted then ([], m) else emitMessageStart id "" m
    ChunkedRuns.resume (.ok opening) fun m =>
      ChunkedRuns.resume (emitFinalBlockStop m) fun m =>
        .ok ([emitMessageDelta m, .messageStop], m)

end Chunks

end AnthropicTranslation
