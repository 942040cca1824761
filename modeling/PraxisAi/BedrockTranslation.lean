import PraxisAi.EventStreamFrames
import PraxisAi.FiniteTranslation

/-! # Provider stream frames as chat completion chunks

The streaming half of the Bedrock translation: one decoded frame becomes at most one chunk, and
the filter feeds the decoder with what arrives and writes the chunks, its own errors and the
closing sentinel. Arithmetic is checked in the release build, so an overflow ends the process. -/
namespace BedrockTranslation

open SseFrames JsonValues FiniteTranslation EventStreamFrames

section Chunks

structure ChunkContext where
  created : ℕ
  id : String
  model : String

def choice (delta : Json) (finishReason : Json) : Json :=
  .obj [("index", .ofNat 0), ("delta", delta), ("logprobs", .null),
    ("finish_reason", finishReason)]

def chunkBytes (context : ChunkContext) (delta : Json) (finishReason : Option String)
    (toolCalls : Option (List Json)) : Json :=
  let delta :=
    match toolCalls with
    | some calls => delta.insert "tool_calls" (.arr calls)
    | none => delta
  .obj [("id", .str context.id), ("object", .str "chat.completion.chunk"),
    ("created", .ofNat context.created), ("model", .str context.model),
    ("choices", .arr [choice delta (finishReason.elim .null .str)])]

def mapStopReason (reason : String) : String :=
  if reason = "tool_use" then "tool_calls"
  else if reason = "max_tokens" ∨ reason = "model_context_window_exceeded" then "length"
  else if reason = "content_filtered" ∨ reason = "guardrail_intervened" then "content_filter"
  else "stop"

def knownStopReasons : List String :=
  ["end_turn", "stop_sequence", "tool_use", "max_tokens", "model_context_window_exceeded",
    "content_filtered", "guardrail_intervened"]

/-- The usage object; no value where the two counts do not add up within 64 bits, since the sum
is taken even if a total is given. -/
def extractUsage (usage : Json) : Option Json :=
  let prompt := ((usage.get? "inputTokens").bind asU64).getD 0
  let completion := ((usage.get? "outputTokens").bind asU64).getD 0
  if prompt + completion < 2 ^ 64 then
    let total := ((usage.get? "totalTokens").bind asU64).getD (prompt + completion)
    some (.obj [("prompt_tokens", .ofNat prompt), ("completion_tokens", .ofNat completion),
      ("total_tokens", .ofNat total)])
  else none

end Chunks

section Events

/-- Why a frame has no translation: its contents were refused, or the process ended. -/
inductive Halt where
  | refused (error : String)
  | overflow
  deriving DecidableEq

structure StreamState where
  toolCallIndex : ℕ
  roleEmitted : Bool
  finishReason : Option String
  created : ℕ
  deriving DecidableEq

def StreamState.start (now : ℕ) : StreamState := ⟨0, false, none, now⟩

abbrev PayloadReader := Bytes → Except String Json

abbrev Translated := Except Halt (Option Json × StreamState)

variable (fromSlice : PayloadReader) (model id : String) (state : StreamState)

def context : ChunkContext := ⟨state.created, id, model⟩

def refuse (error : String) : Translated := .error (.refused error)

def translateMessageStart : Translated :=
  .ok (some (chunkBytes (context model id state)
    (.obj [("role", .str "assistant"), ("content", .str "")]) none none),
    { state with roleEmitted := true })

def startToolCall (toolUseId name : String) : Translated :=
  if state.toolCallIndex + 1 < 2 ^ 32 then
    .ok (some (chunkBytes (context model id state) (.obj []) none
      (some [.obj [("index", .ofNat state.toolCallIndex), ("id", .str toolUseId),
        ("type", .str "function"),
        ("function", .obj [("name", .str name), ("arguments", .str "")])]])),
      { state with toolCallIndex := state.toolCallIndex + 1 })
  else .error .overflow

def translateContentBlockStart (msg : EventStreamMessage) : Translated :=
  match fromSlice msg.payload with
  | .error error => refuse ("invalid contentBlockStart payload: " ++ error)
  | .ok payload =>
    match (payload.get? "start").bind Json.asObj with
    | none => refuse "contentBlockStart payload is missing object `start`"
    | some start =>
      match start.lookup "toolUse" with
      | none => .ok (none, state)
      | some toolUse =>
        match (toolUse.get? "toolUseId").bind Json.asStr with
        | none => refuse "contentBlockStart toolUse is missing `toolUseId`"
        | some toolUseId =>
          match (toolUse.get? "name").bind Json.asStr with
          | none => refuse "contentBlockStart toolUse is missing `name`"
          | some name => startToolCall model id state toolUseId name

def unexposedVariants : List String := ["reasoningContent", "citation", "toolResult", "image"]

def isUnexposed (delta : List (String × Json)) : Bool :=
  unexposedVariants.any fun variant => ((delta.lookup variant).bind Json.asObj).isSome

def translateContentBlockDelta (msg : EventStreamMessage) : Translated :=
  match fromSlice msg.payload with
  | .error error => refuse ("invalid contentBlockDelta payload: " ++ error)
  | .ok payload =>
    match (payload.get? "delta").bind Json.asObj with
    | none => refuse "contentBlockDelta payload is missing object `delta`"
    | some delta =>
      match (delta.lookup "text").bind Json.asStr with
      | some text =>
        .ok (some (chunkBytes (context model id state) (.obj [("content", .str text)]) none none),
          state)
      | none =>
        match delta.lookup "toolUse" with
        | some toolInput =>
          match (toolInput.get? "input").bind Json.asStr with
          | none => refuse "contentBlockDelta toolUse is missing string `input`"
          | some partialArgs =>
            .ok (some (chunkBytes (context model id state) (.obj []) none
              (some [.obj [("index", .ofNat (state.toolCallIndex - 1)),
                ("function", .obj [("arguments", .str partialArgs)])]])), state)
        | none =>
          if isUnexposed delta then .ok (none, state)
          else refuse "contentBlockDelta payload contains no supported delta"

def translateMessageStop (msg : EventStreamMessage) : Translated :=
  match fromSlice msg.payload with
  | .error error => refuse ("invalid messageStop payload: " ++ error)
  | .ok payload =>
    match (payload.get? "stopReason").bind Json.asStr with
    | none => refuse "messageStop payload is missing string `stopReason`"
    | some stopReason =>
      if knownStopReasons.contains stopReason then
        .ok (some (chunkBytes (context model id state) (.obj [])
          (some (mapStopReason stopReason)) none),
          { state with finishReason := some (mapStopReason stopReason) })
      else refuse ("unsupported Bedrock stopReason `" ++ stopReason ++ "`")

def usageChunk (usage : Json) : Json :=
  .obj [("id", .str id), ("object", .str "chat.completion.chunk"),
    ("created", .ofNat state.created), ("model", .str model), ("choices", .arr []),
    ("usage", usage)]

def translateMetadataEvent (msg : EventStreamMessage) : Translated :=
  match fromSlice msg.payload with
  | .error error => refuse ("invalid metadata payload: " ++ error)
  | .ok payload =>
    match (payload.get? "usage").filter fun usage => usage.asObj.isSome with
    | none => refuse "metadata payload is missing object `usage`"
    | some usage =>
      match extractUsage usage with
      | none => .error .overflow
      | some usage => .ok (some (usageChunk model id state usage), state)

def errorBody (message type code : String) : Json :=
  .obj [("message", .str message), ("type", .str type), ("code", .str code)]

/-- An upstream exception keeps the chunk's shape and adds the error. -/
def translateExceptionEvent (msg : EventStreamMessage) : Json :=
  let message :=
    match fromSlice msg.payload with
    | .ok payload => ((payload.get? "message").bind Json.asStr).getD "upstream exception"
    | .error _ => "upstream exception"
  let exceptionType := (msg.headerStr ":exception-type").getD "unknownException"
  .obj [("id", .str id), ("object", .str "chat.completion.chunk"),
    ("created", .ofNat state.created), ("model", .str model),
    ("choices", .arr [choice (.obj []) (.str "stop")]),
    ("error", errorBody message "server_error" exceptionType)]

def transformStreamEvent (msg : EventStreamMessage) : Translated :=
  if msg.isException then .ok (some (translateExceptionEvent fromSlice model id state msg), state)
  else match msg.eventType with
    | none => refuse "Bedrock event is missing `:event-type`"
    | some eventType =>
      if eventType = "messageStart" then translateMessageStart model id state
      else if eventType = "contentBlockStart" then
        translateContentBlockStart fromSlice model id state msg
      else if eventType = "contentBlockDelta" then
        translateContentBlockDelta fromSlice model id state msg
      else if eventType = "messageStop" then translateMessageStop fromSlice model id state msg
      else if eventType = "metadata" then translateMetadataEvent fromSlice model id state msg
      else .ok (none, state)

end Events

section Filter

inductive SseEvent where
  | data (value : Json)
  | done

def SseEvent.wire : SseEvent → Bytes
  | .data value => ascii "data: " ++ ascii value.text ++ ascii "\n\n"
  | .done => ascii "data: [DONE]\n\n"

structure BedrockStreamingState where
  model : String
  responseId : String
  includeUsage : Bool
  decoder : EventStreamDecoder
  streamState : StreamState
  failed : Bool
  deriving DecidableEq

def buildOpenaiErrorBody (message type code : String) : Json :=
  .obj [("error", errorBody message type code)]

def sseError (message code : String) : SseEvent :=
  .data (buildOpenaiErrorBody message "server_error" code)

namespace BedrockStreamingState

def withDecoder (s : BedrockStreamingState) (decoder : EventStreamDecoder) :
    BedrockStreamingState := { s with decoder }

def withStreamState (s : BedrockStreamingState) (streamState : StreamState) :
    BedrockStreamingState := { s with streamState }

def fail (s : BedrockStreamingState) : BedrockStreamingState := { s with failed := true }

/-- An exception marks the stream as failed before its frame is translated. -/
def noted (s : BedrockStreamingState) (msg : EventStreamMessage) : BedrockStreamingState :=
  if msg.isException then s.fail else s

end BedrockStreamingState

inductive Handled where
  | next (events : List SseEvent) (state : BedrockStreamingState)
  | stopped (event : SseEvent) (state : BedrockStreamingState)
  | overflow

variable (fromSlice : PayloadReader)

def isSuppressed (includeUsage : Bool) (msg : EventStreamMessage) : Bool :=
  msg.eventType == some "metadata" && !includeUsage

def emitted (s : BedrockStreamingState) : Translated → Handled
  | .ok (some value, streamState) => .next [.data value] (s.withStreamState streamState)
  | .ok (none, streamState) => .next [] (s.withStreamState streamState)
  | .error (.refused error) =>
    .stopped (sseError ("invalid Bedrock stream event: " ++ error) "stream_translation_error")
      s.fail
  | .error .overflow => .overflow

def handleMessage (s : BedrockStreamingState) (msg : EventStreamMessage) : Handled :=
  let s := s.noted msg
  if isSuppressed s.includeUsage msg then .next [] s
  else emitted s (transformStreamEvent fromSlice s.model s.responseId s.streamState msg)

def appendTranslatedStreamEvents :
    BedrockStreamingState → List EventStreamMessage →
      Option (List SseEvent × BedrockStreamingState)
  | s, [] => some ([], s)
  | s, msg :: rest =>
    match handleMessage fromSlice s msg with
    | .next events s' =>
      (appendTranslatedStreamEvents s' rest).map fun (more, s'') => (events ++ more, s'')
    | .stopped event s' => some ([event], s')
    | .overflow => none

def decodeError (e : DecodeError) : SseEvent :=
  sseError ("invalid Bedrock event stream: " ++ e.text) "stream_decode_error"

def decodeStreamEvents (s : BedrockStreamingState) :
    Option (List SseEvent × BedrockStreamingState) :=
  match s.decoder.decodeAll with
  | (.ok messages, decoder) =>
    appendTranslatedStreamEvents fromSlice (s.withDecoder decoder) messages
  | (.error e, decoder) => some ([decodeError e], (s.withDecoder decoder).fail)

def closing (s : BedrockStreamingState) : List SseEvent :=
  if s.failed then []
  else if !s.decoder.isEmpty then
    [sseError "Bedrock event stream ended with an incomplete frame" "incomplete_stream"]
  else if s.streamState.finishReason.isNone then
    [sseError "Bedrock event stream ended before a messageStop event" "incomplete_stream"]
  else [.done]

structure FilterContext where
  model : Option String
  responseId : Option String
  includeUsage : Option String
  streaming : Option BedrockStreamingState
  deriving DecidableEq

def defaultMaxBodyBytes : ℕ := 4 * 1048576

def fallbackId : String := "chatcmpl-bedrock"

def FilterContext.begin (ctx : FilterContext) (now maxFrameBytes : ℕ) : BedrockStreamingState where
  model := ctx.model.getD "unknown"
  responseId := ctx.responseId.getD fallbackId
  includeUsage := ctx.includeUsage == some "true"
  decoder := .withMaxFrameLen maxFrameBytes
  streamState := .start now
  failed := false

/-- One call of the filter's body hook; no value if the process ended. -/
def translateStreamChunk (now maxFrameBytes : ℕ) (ctx : FilterContext) (chunk : Bytes)
    (endOfStream : Bool) : Option (List SseEvent × FilterContext) :=
  let s := ctx.streaming.getD (ctx.begin now maxFrameBytes)
  (decodeStreamEvents fromSlice (s.withDecoder (s.decoder.push chunk))).map fun (events, s) =>
    if endOfStream then (events ++ closing s, { ctx with streaming := none })
    else (events, { ctx with streaming := some s })

/-- The calls of one response, the last of which ends the stream: what they sent, and whether
the process lived through them. -/
def respond (now maxFrameBytes : ℕ) : FilterContext → List Bytes → List SseEvent × Bool
  | _, [] => ([], true)
  | ctx, [chunk] =>
    match translateStreamChunk fromSlice now maxFrameBytes ctx chunk true with
    | none => ([], false)
    | some (events, _) => (events, true)
  | ctx, chunk :: rest =>
    match translateStreamChunk fromSlice now maxFrameBytes ctx chunk false with
    | none => ([], false)
    | some (events, ctx') =>
      let (more, alive) := respond now maxFrameBytes ctx' rest
      (events ++ more, alive)

end Filter

end BedrockTranslation
