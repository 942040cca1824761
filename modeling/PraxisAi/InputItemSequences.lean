import PraxisAi.ResponseState
import PraxisAi.SaturatingArithmetic

/-! # Histories as Chat messages

A list of Responses input items becomes a list of Chat messages. Adjacent function calls share one
assistant message, and the reasoning of earlier turns is put on the assistant message that follows
it, or on one of its own. -/
namespace InputItemSequences

open JsonValues FiniteTranslation SaturatingArithmetic ResponseState

/-! ## Content -/

section Content

def missingInputItemField (kind field : String) : TranslationError :=
  .untranslatable
    ("Responses " ++ kind ++ " input item is missing required field `" ++ field ++ "`")

def requiredInputItemString (obj : Json) (kind field : String) :
    Except TranslationError String :=
  match obj.get? field with
  | some (.str value) => .ok value
  | some _ => .error (.untranslatable
      ("Responses " ++ kind ++ " input item field `" ++ field ++ "` must be a string"))
  | none => .error (missingInputItemField kind field)

def unsupportedContentPartType (kind : String) : TranslationError :=
  .untranslatable
    ("unsupported Responses content part type for Chat Completions translation: " ++ kind)

def unsupportedContentPart (reason : String) : TranslationError :=
  .untranslatable
    ("unsupported Responses content part for Chat Completions translation: " ++ reason)

def copyField (source : Json) (target : List (String × Json)) (key : String) :
    List (String × Json) :=
  match source.get? key with
  | some value => Json.setField key value target
  | none => target

/-- A null is no breakpoint. -/
def promptCacheBreakpoint (part : Json) : Option Json :=
  (part.get? "prompt_cache_breakpoint").filter fun value => jsonTypeName value != "null"

def copyPromptCacheBreakpoint (part : Json) (target : List (String × Json)) :
    List (String × Json) :=
  match promptCacheBreakpoint part with
  | some breakpoint => Json.setField "prompt_cache_breakpoint" breakpoint target
  | none => target

def convertInputImagePart (part : Json) : Except TranslationError Json :=
  if !isObject part then .error (unsupportedContentPartType "input_image")
  else match part.get? "image_url" with
    | none => .error (unsupportedContentPart
        (if (part.get? "file_id").isSome then
          "input_image requires image_url; file_id references are not supported"
        else "input_image requires image_url"))
    | some url => .ok (.obj (copyPromptCacheBreakpoint part
        [("type", .str "image_url"), ("image_url", .obj (copyField part [("url", url)] "detail"))]))

def convertInputFilePart (part : Json) : Except TranslationError Json :=
  if !isObject part then .error (unsupportedContentPartType "input_file")
  else
    let file := ["file_id", "filename", "file_data", "file_url"].foldl (copyField part) []
    if file.isEmpty then .error (unsupportedContentPart
      "input_file requires file_id, filename, file_data, or file_url")
    else .ok (.obj (copyPromptCacheBreakpoint part [("type", .str "file"), ("file", .obj file)]))

structure ConvertedContentParts where
  textParts : List String := []
  chatParts : List Json := []
  allText : Bool := true

def ConvertedContentParts.pushText (converted : ConvertedContentParts) (part : Json) :
    Except TranslationError ConvertedContentParts :=
  match strField "text" part with
  | none => .error (unsupportedContentPart "text content part requires a string `text` field")
  | some text => .ok
      { textParts := converted.textParts ++ [text]
        chatParts := converted.chatParts ++ [.obj (copyPromptCacheBreakpoint part
          [("type", .str "text"), ("text", .str text)])]
        -- a string cannot carry a breakpoint
        allText := converted.allText && (promptCacheBreakpoint part).isNone }

def ConvertedContentParts.pushNonText (converted : ConvertedContentParts) (part : Json) :
    ConvertedContentParts :=
  { converted with allText := false, chatParts := converted.chatParts ++ [part] }

def ConvertedContentParts.push (converted : ConvertedContentParts) (part : Json) :
    Except TranslationError ConvertedContentParts :=
  match strField "type" part with
  | some "input_text" => converted.pushText part
  | some "output_text" => converted.pushText part
  | some "text" => converted.pushText part
  | some "input_image" => do
    let image ← convertInputImagePart part
    .ok (converted.pushNonText image)
  | some "input_file" => do
    let file ← convertInputFilePart part
    .ok (converted.pushNonText file)
  | some kind => .error (unsupportedContentPartType kind)
  | none => .error (unsupportedContentPartType "unknown")

def ConvertedContentParts.finish (converted : ConvertedContentParts) : Json :=
  if converted.allText then .str (String.join converted.textParts) else .arr converted.chatParts

def convertInputContentParts (parts : List Json) : Except TranslationError Json := do
  let converted ← parts.foldlM ConvertedContentParts.push {}
  .ok converted.finish

def convertInputContent (content : Json) : Except TranslationError Json :=
  match content with
  | .str text => .ok (.str text)
  | .arr parts => convertInputContentParts parts
  | _ => .error (.untranslatable ("Responses message input item field `content` must be a " ++
      "string or array of content parts"))

def unsupportedFunctionCallOutputPart (reason : String) : TranslationError :=
  .untranslatable ("unsupported Responses function_call_output part for Chat Completions " ++
    "translation: " ++ reason)

def appendOutputPart (content : String) (part : Json) : Except TranslationError String :=
  match strField "type" part with
  | none => .error (unsupportedFunctionCallOutputPart "unknown")
  | some kind =>
    if kind = "input_text" then
      match strField "text" part with
      | some text => .ok (content ++ text)
      | none => .error
          (unsupportedFunctionCallOutputPart "input_text requires a string `text` field")
    else .error (unsupportedFunctionCallOutputPart kind)

def convertFunctionCallOutput (output : Json) : Except TranslationError String :=
  match output with
  | .str text => .ok text
  | .arr parts => parts.foldlM appendOutputPart ""
  | _ => .error (.untranslatable ("Responses function_call_output input item field `output` " ++
      "must be a string or array of input_text parts"))

end Content

/-! ## Reasoning of earlier turns -/

section Replay

def unsupportedReasoningInput (reason : String) : TranslationError :=
  .untranslatable ("unsupported reasoning input item: " ++ reason)

def appendReasoningPart (maxBytes : Usize) (text : String) (part : Json) :
    Except TranslationError String :=
  if strField "type" part ≠ some "reasoning_text" then
    .error (unsupportedReasoningInput "content must contain only reasoning_text parts")
  else match strField "text" part with
    | none => .error (.untranslatable
        ("malformed reasoning input item: reasoning_text must be a string, found " ++
          jsonTypeName (orNull (part.get? "text"))))
    | some chunk => do
      enforceReasoningLimit (satAdd u64Max text.utf8ByteSize chunk.utf8ByteSize) maxBytes
      .ok (text ++ chunk)

def concatReasoningTextParts (parts : List Json) (maxBytes : Usize) :
    Except TranslationError String :=
  parts.foldlM (appendReasoningPart maxBytes) ""

def reasoningInputText (item : Json) (options : ReasoningOptions) :
    Except TranslationError String :=
  if !options.dialect.isEnabled then
    .error (unsupportedReasoningInput "a reasoning dialect must be configured")
  else if (item.get? "encrypted_content").any fun value => jsonTypeName value != "null" then
    .error (unsupportedReasoningInput "encrypted_content cannot be replayed")
  else match (item.get? "content").bind Json.asArr with
    | none => .error (unsupportedReasoningInput "content must contain raw reasoning_text parts")
    | some parts => do
      let text ← concatReasoningTextParts parts options.maxReasoningBytes
      if text.isEmpty then
        .error (unsupportedReasoningInput "content must contain non-empty raw reasoning text")
      else .ok text

def attach (options : ReasoningOptions) (pending : Option String) (message : Json) :
    Except TranslationError (Json × Option String) :=
  match pending with
  | none => .ok (message, none)
  | some text =>
    match options.dialect with
    | .vllm => .ok (message.insert "reasoning" (.str text), none)
    | .none => .error (unsupportedReasoningInput "a reasoning dialect must be configured")

def buffer (options : ReasoningOptions) (pending : Option String) (obj : Json) :
    Except TranslationError (Option String) := do
  let text ← reasoningInputText obj options
  match pending with
  | some existing =>
    enforceReasoningLimit
      (satAdd u64Max (satAdd u64Max existing.utf8ByteSize 1) text.utf8ByteSize)
      options.maxReasoningBytes
    .ok (some (existing ++ "\n" ++ text))
  | none => .ok (some text)

structure Appending where
  messages : List Json
  pendingToolCalls : List Json
  replay : Option String

def flushStandalone (options : ReasoningOptions) (s : Appending) :
    Except TranslationError Appending :=
  if s.replay.isSome then do
    let (message, replay) ← attach options s.replay
      (.obj [("role", .str "assistant"), ("content", .null)])
    .ok { s with messages := s.messages ++ [message], replay }
  else .ok s

end Replay

/-! ## Items -/

section Items

def defaultSummaryPrefix : String := "[Previous conversation summary]\n\n"

variable (base64 : String → Option ByteArray) (options : ReasoningOptions)

def functionCallToolCall (obj : Json) : Except TranslationError Json := do
  let callId ← requiredInputItemString obj "function_call" "call_id"
  let name ← requiredInputItemString obj "function_call" "name"
  let arguments ← requiredInputItemString obj "function_call" "arguments"
  .ok (.obj [("id", .str callId), ("type", .str "function"),
    ("function", .obj [("name", .str name), ("arguments", .str arguments)])])

def flushPendingFunctionCalls (s : Appending) : Except TranslationError Appending :=
  if s.pendingToolCalls.isEmpty then .ok s
  else do
    let (message, replay) ← attach options s.replay (.obj [("role", .str "assistant"),
      ("content", .null), ("tool_calls", .arr s.pendingToolCalls)])
    .ok { messages := s.messages ++ [message], pendingToolCalls := [], replay }

def appendToolOutput (s : Appending) (obj : Json) : Except TranslationError Appending := do
  let callId ← requiredInputItemString obj "function_call_output" "call_id"
  match obj.get? "output" with
  | none => .error (missingInputItemField "function_call_output" "output")
  | some output => do
    let content ← convertFunctionCallOutput output
    .ok { s with messages := s.messages ++ [.obj [("role", .str "tool"),
      ("tool_call_id", .str callId), ("content", .str content)]] }

def appendMessageItem (s : Appending) (obj : Json) : Except TranslationError Appending := do
  let role ← requiredInputItemString obj "message" "role"
  match obj.get? "content" with
  | none => .error (missingInputItemField "message" "content")
  | some content => do
    let content ← convertInputContent content
    if role = "assistant" then do
      let (message, replay) ← attach options s.replay
        (.obj [("role", .str role), ("content", content)])
      .ok { s with messages := s.messages ++ [message], replay }
    else do
      let s ← flushStandalone options s
      .ok { s with messages := s.messages ++ [.obj [("role", .str role), ("content", content)]] }

def decodeCompactionSummary (encoded : String) : Except TranslationError String :=
  match base64 encoded with
  | none => .error (.untranslatable
      "Responses compaction input item field `encrypted_content` must be valid base64")
  | some bytes =>
    match String.fromUTF8? bytes with
    | none => .error (.untranslatable
        "Responses compaction input item field `encrypted_content` must be valid UTF-8")
    | some summary => .ok summary

def compactionText (obj : Json) (summary : String) : String :=
  (strField "summary_prefix" obj).getD defaultSummaryPrefix ++ summary

def appendCompactionItem (s : Appending) (obj : Json) : Except TranslationError Appending := do
  let encoded ← requiredInputItemString obj "compaction" "encrypted_content"
  let summary ← decodeCompactionSummary base64 encoded
  if summary.isEmpty then .ok s
  else .ok { s with messages := s.messages ++ [.obj [("role", .str "assistant"),
    ("content", .str (compactionText obj summary))]] }

def inputItemType (obj : Json) : Except TranslationError (Option String) :=
  match obj.get? "type" with
  | some (.str kind) => .ok (some kind)
  | some _ => .error (.untranslatable "Responses input item field `type` must be a string")
  | none => .ok none

def unsupportedInputItemType (kind : String) : TranslationError :=
  .untranslatable
    ("unsupported Responses input item type for Chat Completions translation: " ++ kind)

def appendInputItem (s : Appending) (item : Json) : Except TranslationError Appending :=
  if !isObject item then .error (.untranslatable "Responses input item must be a JSON object")
  else do
    match ← inputItemType item with
    | some kind =>
      if kind = "function_call_output" then do
        let s ← flushStandalone options s
        appendToolOutput s item
      else if kind = "message" then appendMessageItem options s item
      else if kind = "compaction" then do
        let s ← flushStandalone options s
        appendCompactionItem base64 s item
      else .error (unsupportedInputItemType kind)
    | none =>
      if (item.get? "role").isSome || (item.get? "content").isSome then
        appendMessageItem options s item
      else .error (unsupportedInputItemType "unknown")

def appendSequenceItem (s : Appending) (item : Json) : Except TranslationError Appending :=
  if itemType item = some "function_call" then do
    let call ← functionCallToolCall item
    .ok { s with pendingToolCalls := s.pendingToolCalls ++ [call] }
  else if itemType item = some "reasoning" then do
    let replay ← buffer options s.replay item
    .ok { s with replay }
  else do
    let s ← flushPendingFunctionCalls options s
    appendInputItem base64 options s item

end Items

end InputItemSequences
