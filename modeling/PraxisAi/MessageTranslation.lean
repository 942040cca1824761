import PraxisAi.FallibleSteps
import PraxisAi.FiniteTranslation
import PraxisAi.ResponseState

/-! # Messages requests as chat requests

The request direction of the Anthropic translation without lossy features: a validator decides
what is accepted, another set of functions converts the content blocks and drops silently what it
does not understand. What a request says is read on both sides as a list of units; an accepted
request says the same before and after. -/
namespace MessageTranslation

open List Option
open JsonValues FiniteTranslation FallibleSteps
open ResponseState (isNull removeField)

abbrev Fields := List (String × Json)

section Validation

def isBoolean (value : Json) : Bool := (asBool value).isSome

def strAt (value : Json) (key : String) : Option String := (value.get? key).bind Json.asStr

def hasOnlyKeys (value : Json) (keys : List String) : Bool :=
  value.asObj.any fun fields => fields.all fun field => keys.contains field.1

def nullOrAbsent (value : Json) (key : String) : Bool := (value.get? key).all isNull

def textBlockIsSupported (block : Json) : Bool :=
  strAt block "type" == some "text" && (block.get? "text").any isString &&
    (block.get? "citations").all (fun citations =>
      isNull citations || citations.asArr.any List.isEmpty) &&
    nullOrAbsent block "cache_control" &&
    hasOnlyKeys block ["type", "text", "citations", "cache_control"]

def directCallerIsSupported (caller : Json) : Bool :=
  isNull caller || caller.asObj.any fun fields =>
    fields.length == 1 && (fields.lookup "type").bind Json.asStr == some "direct"

def imageSourceIsSupported (source : Json) : Bool :=
  match strAt source "type" with
  | some "base64" =>
    (source.get? "media_type").any isString && (source.get? "data").any isString &&
      hasOnlyKeys source ["type", "media_type", "data"]
  | some "url" => (source.get? "url").any isString && hasOnlyKeys source ["type", "url"]
  | _ => false

def imageBlockIsSupported (block source : Json) : Bool :=
  imageSourceIsSupported source && hasOnlyKeys block ["type", "source", "cache_control"] &&
    nullOrAbsent block "cache_control"

/-- Any input is written out as arguments, so nothing is asked of it. -/
def toolUseIsSupported (block : Json) : Bool :=
  (block.get? "id").any isString && (block.get? "name").any isString &&
    hasOnlyKeys block ["type", "id", "name", "input", "caller", "toolset_name", "cache_control"] &&
    (block.get? "caller").all directCallerIsSupported && nullOrAbsent block "toolset_name" &&
    nullOrAbsent block "cache_control"

def resultContentIsText (content : Option Json) : Bool :=
  match content with
  | none => true
  | some (.str _) => true
  | some (.arr parts) => parts.all textBlockIsSupported
  | _ => false

def toolResultIsSupported (block : Json) : Bool :=
  (block.get? "tool_use_id").any isString && resultContentIsText (block.get? "content") &&
    (block.get? "is_error").bind asBool != some true &&
    (block.get? "is_error").all (fun value => isBoolean value || isNull value) &&
    hasOnlyKeys block
      ["type", "tool_use_id", "content", "is_error", "toolset_name", "cache_control"] &&
    nullOrAbsent block "toolset_name" && nullOrAbsent block "cache_control"

def unsupportedBlock (kind : String) : String :=
  "unsupported Anthropic content block `" ++ kind ++ "`"

/-- A kind whose guard fails falls through to the arm of unknown kinds. -/
def validateBlock (hasToolUse : Bool) (role : String) (block : Json) : Except String Unit :=
  match strAt block "type" with
  | none => .error "Anthropic content block requires a string `type`"
  | some kind =>
    if kind = "text" ∧ textBlockIsSupported block = true then .ok ()
    else if kind = "image" ∧ role = "user" ∧ hasToolUse = false then
      match block.get? "source" with
      | none => .error "image block is missing `source`"
      | some source =>
        if imageBlockIsSupported block source then .ok ()
        else .error "image block has an unsupported `source`"
    else if kind = "tool_use" ∧ role = "assistant" then
      if toolUseIsSupported block then .ok ()
      else .error "tool_use block requires string `id` and `name`"
    else if kind = "tool_result" ∧ role = "user" then
      if toolResultIsSupported block then .ok ()
      else .error "tool_result requires string `tool_use_id` and text `content`"
    else .error (unsupportedBlock kind)

def isToolUse (block : Json) : Bool := strAt block "type" == some "tool_use"

def checkAll {α : Type} (check : α → Except String Unit) : List α → Except String Unit
  | [] => .ok ()
  | x :: rest => do
    check x
    checkAll check rest

def validateContentBlocks (blocks : List Json) (role : String) : Except String Unit :=
  checkAll (validateBlock (blocks.any isToolUse) role) blocks

def validateMessage (message : Json) : Except String Unit :=
  if hasOnlyKeys message ["role", "content"] then
    match strAt message "role" with
    | none => .error "message is missing a string `role`"
    | some role =>
      if role ∈ ["system", "user", "assistant"] then
        match message.get? "content" with
        | some (.str _) => .ok ()
        | some (.arr blocks) => validateContentBlocks blocks role
        | _ => .error "message `content` must be a string or array"
      else .error ("unsupported Anthropic message role `" ++ role ++ "`")
  else .error "unsupported Anthropic message field for Chat Completions translation"

def present (body : Json) (key : String) : Option Json :=
  (body.get? key).filter fun value => !isNull value

def unmappableFields : List String := ["thinking", "context_management", "cache_control"]

def validateUnmappable (body : Json) : Except String Unit :=
  checkAll (fun field =>
    if (present body field).isSome then
      .error ("`" ++ field ++ "` cannot be translated to Chat Completions")
    else .ok ()) unmappableFields

def validateSystem (body : Json) : Except String Unit :=
  match body.get? "system" with
  | none => .ok ()
  | some (.str _) => .ok ()
  | some .null => .ok ()
  | some (.arr blocks) =>
    if blocks.all textBlockIsSupported then .ok ()
    else .error "`system` must be a string or array of text blocks"
  | _ => .error "`system` must be a string or array of text blocks"

def validateStreamOptions (body : Json) : Except String Unit :=
  if (body.get? "stream").bind asBool ≠ some true ∧ (present body "stream_options").isSome then
    .error "`stream_options` requires `stream: true`"
  else
    match present body "stream_options" with
    | none => .ok ()
    | some options =>
      match options.asObj with
      | none => .error "`stream_options` must be an object"
      | some fields =>
        if (fields.lookup "include_usage").any fun value => !isBoolean value && !isNull value then
          .error "`stream_options.include_usage` must be a boolean"
        else .ok ()

def validateMetadata (body : Json) : Except String Unit :=
  match present body "metadata" with
  | none => .ok ()
  | some metadata =>
    match metadata.asObj with
    | none => .error "`metadata` must be an object"
    | some fields =>
      if fields.any (fun field => field.1 != "user_id") ||
          (fields.lookup "user_id").any fun value => !isNull value && !isString value then
        .error "unsupported Anthropic `metadata` for Chat Completions translation"
      else .ok ()

def validateMessages (body : Json) : Except String Unit :=
  match body.get? "messages" with
  | none => .ok ()
  | some (.arr messages) => checkAll validateMessage messages
  | some _ => .error "`messages` must be an array"

def validateTool (tool : Json) : Except String Unit :=
  match tool.asObj with
  | none => .error "tool must be an object"
  | some fields =>
    if (fields.lookup "type").any fun kind => kind.asStr != some "custom" then
      .error "typed Anthropic tools cannot be translated to Chat Completions"
    else if !(fields.lookup "name").any isString then
      .error "tool requires a string `name`"
    else if !(fields.lookup "input_schema").any isObject then
      .error "tool requires an `input_schema` object"
    else if fields.any (fun field =>
          !(["type", "name", "description", "input_schema", "strict"].contains field.1)) ||
        (fields.lookup "description").any (fun value => !isString value && !isNull value) ||
        (fields.lookup "strict").any (fun value => !isBoolean value && !isNull value) then
      .error "unsupported Anthropic tool field for Chat Completions translation"
    else .ok ()

def validateTools (body : Json) : Except String Unit :=
  match present body "tools" with
  | none => .ok ()
  | some (.arr tools) => checkAll validateTool tools
  | some _ => .error "`tools` must be an array"

def validateOutputConfig (body : Json) : Except String Unit :=
  if (body.get? "output_config").any fun config => !isNull config && !isObject config then
    .error "`output_config` must be an object"
  else .ok ()

def toolChoiceIsValid : Json → Bool
  | .str kind => ["auto", "any", "none"].contains kind
  | .obj choice =>
    match (choice.lookup "type").bind Json.asStr with
    | some "tool" =>
      (choice.lookup "name").any isString && choice.all fun field =>
        ["type", "name", "disable_parallel_tool_use"].contains field.1
    | some kind =>
      ["auto", "any", "none"].contains kind && choice.all fun field =>
        ["type", "disable_parallel_tool_use"].contains field.1
    | none => false
  | _ => false

def needsTools (choice : Json) : Bool :=
  ((strAt choice "type").or choice.asStr).any fun kind => ["any", "tool"].contains kind

def validateToolChoice (body : Json) : Except String Unit :=
  match present body "tool_choice" with
  | none => .ok ()
  | some choice =>
    let validParallel := (choice.get? "disable_parallel_tool_use").all fun value =>
      isBoolean value || isNull value
    let hasTools := ((body.get? "tools").bind Json.asArr).any fun tools => !tools.isEmpty
    if !toolChoiceIsValid choice || !validParallel || (needsTools choice && !hasTools) then
      .error "unsupported Anthropic `tool_choice` for Chat Completions translation"
    else .ok ()

def validateFaithfulRequest (body : Json) : Except String Unit := do
  validateUnmappable body
  validateSystem body
  validateStreamOptions body
  validateMetadata body
  validateMessages body
  validateTools body
  validateOutputConfig body
  validateToolChoice body

end Validation

section Conversion

/-- The order of the fields that stay is not read. -/
def without (key : String) (fields : Fields) : Fields := fields.filter fun field => field.1 != key

def takeString (key : String) (fields : Fields) : Option String :=
  (fields.lookup key).bind Json.asStr

def nonEmptyString (key : String) (fields : Fields) : Option String :=
  (takeString key fields).filter fun text => !text.isEmpty

/-- Quoted, so that a line feed in a value cannot pass for a label. -/
def quoteLabelValue (value : String) : String := Json.quote value

def extractTextBlocks : Option Json → List String
  | some (.arr blocks) => blocks.filterMap fun block =>
    if strAt block "type" = some "text" then (strAt block "text").filter fun text => !text.isEmpty
    else none
  | _ => []

def nonEmptyLines (lines : List String) : Option String :=
  if lines.any fun line => !line.isEmpty then some ("\n".intercalate lines) else none

def flattenSearchResult (block : Fields) : Option String :=
  let title := nonEmptyString "title" block
  let source := nonEmptyString "source" block
  let content := extractTextBlocks (block.lookup "content")
  if title.isNone && source.isNone && content.isEmpty then none
  else some
    (title.elim "Search result" (fun title => "Search result: " ++ quoteLabelValue title) ++
      source.elim "" (fun source => "\nSource: " ++ quoteLabelValue source) ++
      if content.isEmpty then "" else "\nContent:" ++ String.join (content.map ("\n" ++ ·)))

def flattenDocumentSource (source : Option Json) : Option String :=
  (source.bind Json.asObj).bind fun source =>
    match takeString "type" source with
    | some "text" => (nonEmptyString "data" source).map ("Content:\n" ++ ·)
    | some "content" =>
      (nonEmptyLines (extractTextBlocks (source.lookup "content"))).map ("Content:\n" ++ ·)
    | some "url" =>
      (nonEmptyString "url" source).map fun url => "Source: " ++ quoteLabelValue url
    | some "file" =>
      (nonEmptyString "file_id" source).map fun id => "Source: " ++ quoteLabelValue ("file:" ++ id)
    | some "base64" =>
      (nonEmptyString "media_type" source).map fun mediaType =>
        "Source: " ++ quoteLabelValue ("base64:" ++ mediaType)
    | _ => none

def flattenDocument (block : Fields) : Option String :=
  let title := nonEmptyString "title" block
  let context := nonEmptyString "context" block
  let sourceText := flattenDocumentSource (block.lookup "source")
  if title.isNone && context.isNone && sourceText.isNone then none
  else some
    (title.elim "Document" (fun title => "Document: " ++ quoteLabelValue title) ++
      context.elim "" (fun context => "\nContext: " ++ quoteLabelValue context) ++
      sourceText.elim "" ("\n" ++ ·))

def textMessage (role content : String) : Json :=
  .obj [("role", .str role), ("content", .str content)]

def textContentPart (text : String) : Json := .obj [("type", .str "text"), ("text", .str text)]

def imageContentPart (url : String) : Json :=
  .obj [("type", .str "image_url"), ("image_url", .obj [("url", .str url)])]

def systemContent : Option Json → Option String
  | some (.str text) => some text
  | some (.arr blocks) =>
    some ("\n".intercalate (blocks.filterMap fun block => block.asObj.bind (takeString "text")))
  | _ => none

def hoistSystem (system : Option Json) : List Json :=
  match systemContent system with
  | none => []
  | some content => if content.isEmpty then [] else [textMessage "system" content]

/-- What a message in the making has come to: the messages sent, the parts kept back and the
calls. -/
structure Draft where
  messages : List Json
  contentParts : List Json
  toolCalls : List Json

def convertImageSource (source : Json) : Option String :=
  source.asObj.bind fun fields =>
    (takeString "type" fields).bind fun sourceType =>
      if sourceType = "base64" then
        (takeString "media_type" (without "type" fields)).bind fun mediaType =>
          (takeString "data" (without "media_type" (without "type" fields))).map fun data =>
            "data:" ++ mediaType ++ ";base64," ++ data
      else if sourceType = "url" then takeString "url" (without "type" fields)
      else none

def convertImageBlock (block : Fields) : List Json :=
  (((block.lookup "source").bind convertImageSource).map imageContentPart).toList

def convertToolUseBlock (block : Fields) : Json :=
  let id := (takeString "id" block).getD ""
  let name := (takeString "name" block).getD ""
  let args := match block.lookup "input" with
    | some input => input.text
    | none => "\x7b\x7d"
  .obj [("id", .str id), ("type", .str "function"),
    ("function", .obj [("name", .str name), ("arguments", .str args)])]

def splitToolResultPart (part : Json) : List String × List Json :=
  match part.asObj with
  | none => ([], [])
  | some fields =>
    let rest := without "type" fields
    match takeString "type" fields with
    | some "text" => ((takeString "text" rest).toList, [])
    | some "search_result" => ((flattenSearchResult rest).toList, [])
    | some "document" => ((flattenDocument rest).toList, [])
    | some "image" => ([], convertImageBlock rest)
    | _ => ([], [])

def splitToolResultParts (parts : List Json) : String × List Json :=
  ("\n".intercalate (parts.flatMap fun part => (splitToolResultPart part).1),
    parts.flatMap fun part => (splitToolResultPart part).2)

def splitToolResultContent : Option Json → String × List Json
  | some (.str text) => (text, [])
  | some (.arr parts) => splitToolResultParts parts
  | _ => ("", [])

def markToolResultError (content : String) : String :=
  if content.isEmpty then "Anthropic tool_result error"
  else "Anthropic tool_result error:\n" ++ content

def toolMessage (callId content : String) : Json :=
  .obj [("role", .str "tool"), ("tool_call_id", .str callId), ("content", .str content)]

def convertToolResultBlock (block : Fields) : List Json :=
  let callId := (takeString "tool_use_id" block).getD ""
  let isError := (block.lookup "is_error").bind asBool == some true
  let (content, images) := splitToolResultContent (block.lookup "content")
  let content := if isError then markToolResultError content else content
  toolMessage callId content ::
    if images.isEmpty then [] else [.obj [("role", .str "user"), ("content", .arr images)]]

def takeTextPart (part : Json) : Option String :=
  if strAt part "type" = some "text" then strAt part "text" else none

def takeJoinedText (parts : List Json) : Option String :=
  parts.foldl (fun joined part =>
    match takeTextPart part with
    | none => joined
    | some text => some (joined.elim text (· ++ text))) none

def flushed (role : String) : List Json → List Json
  | [] => []
  | [part] =>
    match takeTextPart part with
    | some text => [textMessage role text]
    | none => [.obj [("role", .str role), ("content", .arr [part])]]
  | parts => [.obj [("role", .str role), ("content", .arr parts)]]

def flushContentParts (role : String) (d : Draft) : Draft :=
  { d with messages := d.messages ++ flushed role d.contentParts, contentParts := [] }

def Draft.part (d : Draft) (parts : List Json) : Draft :=
  { d with contentParts := d.contentParts ++ parts }

def convertSingleBlock (role blockType : String) (block : Fields) (d : Draft) : Draft :=
  match blockType with
  | "text" => d.part ((takeString "text" block).map textContentPart).toList
  | "image" => d.part (convertImageBlock block)
  | "search_result" => d.part ((flattenSearchResult block).map textContentPart).toList
  | "document" => d.part ((flattenDocument block).map textContentPart).toList
  | "tool_use" => { d with toolCalls := d.toolCalls ++ [convertToolUseBlock block] }
  | "tool_result" =>
    let d := flushContentParts role d
    { d with messages := d.messages ++ convertToolResultBlock block }
  | _ => d

def convertBlock (role : String) (d : Draft) (block : Json) : Draft :=
  let fields := block.asObj.getD []
  convertSingleBlock role ((takeString "type" fields).getD "") (without "type" fields) d

def callMessage (content : Option String) (toolCalls : List Json) : Json :=
  .obj ([("role", .str "assistant")] ++ (content.map fun text => ("content", .str text)).toList ++
    [("tool_calls", .arr toolCalls)])

def finalizeContentBlocks (role : String) (d : Draft) : List Json :=
  if role = "assistant" ∧ d.toolCalls ≠ [] then
    d.messages ++ [callMessage (takeJoinedText d.contentParts) d.toolCalls]
  else (flushContentParts role d).messages

def convertContentBlocks (messages : List Json) (role : String) (blocks : List Json) : List Json :=
  finalizeContentBlocks role (blocks.foldl (convertBlock role) ⟨messages, [], []⟩)

def convertMessage (messages : List Json) (message : Json) : List Json :=
  match strAt message "role" with
  | none => messages
  | some role =>
    match message.get? "content" with
    | some (.str text) => messages ++ [textMessage role text]
    | some (.arr blocks) => convertContentBlocks messages role blocks
    | _ => messages ++ [textMessage role ""]

def convertMessages (messages : List Json) : Option Json → List Json
  | some (.arr source) => source.foldl (convertMessage) messages
  | _ => messages

def buildMessages (system messages : Option Json) : Json :=
  .arr (convertMessages (hoistSystem system) messages)

end Conversion

section Request

-- The hexadecimal digest of a user's name.
variable (digest : String → String)

def unrepresentableFields : List String :=
  ["service_tier", "container", "inference_geo", "mcp_servers", "n", "logprobs", "top_logprobs",
    "audio", "modalities", "functions", "function_call", "web_search_options", "moderation"]

def isDefaultValue (field : String) (value : Json) : Bool :=
  match field, value with
  | "n", .num text => text == "1"
  | "logprobs", .bool value => !value
  | "modalities", .arr [.str kind] => kind == "text"
  | "function_call", .str kind => kind == "none"
  | "service_tier", .str kind => kind == "auto"
  | "mcp_servers", .arr items => items.isEmpty
  | _, _ => false

def rejectUnrepresentableFields (body : Json) : Except String Unit :=
  checkAll (fun field =>
    if (present body field).any fun value => !isDefaultValue field value then
      .error ("`" ++ field ++
        "` is not supported when translating Anthropic Messages to Chat Completions")
    else .ok ()) unrepresentableFields

def insertIfSome (key : String) (value : Option Json) (chat : Fields) : Fields :=
  match value with
  | none => chat
  | some value => Json.setField key value chat

def convertStream (stream streamOptions : Option Json) (chat : Fields) : Fields :=
  match stream with
  | none => chat
  | some stream =>
    if asBool stream = some true then
      Json.setField "stream_options" (.obj (Json.setField "include_usage" (.bool true)
        ((streamOptions.bind Json.asObj).getD []))) (Json.setField "stream" stream chat)
    else Json.setField "stream" stream chat

def mapParameters (stopSequences temperature topP : Option Json) (chat : Fields) : Fields :=
  insertIfSome "top_p" topP
    (insertIfSome "temperature" temperature (insertIfSome "stop" stopSequences chat))

def mapMetadata (metadata : Option Json) (chat : Fields) : Fields :=
  insertIfSome "safety_identifier"
    (((metadata.bind Json.asObj).bind (takeString "user_id")).map fun userId =>
      .str (digest userId)) chat

def outputConfigKeys : List String := ["effort", "format", "task_budget"]

def responseFormat (format : Json) : Except String Json :=
  match strAt format "type", format.get? "schema" with
  | some "json_schema", some schema =>
    .ok (.obj [("type", .str "json_schema"), ("json_schema",
      .obj [("name", .str "output_format"), ("strict", .bool true), ("schema", schema)])])
  | _, _ => .error ("`output_config.format` must be a `json_schema` object with a `schema` " ++
      "when translating Anthropic Messages to Chat Completions")

def insertFormat (format : Option Json) (chat : Fields) : Except String Fields :=
  match format.filter fun format => !isNull format with
  | none => .ok chat
  | some format =>
    (responseFormat format).map fun value => Json.setField "response_format" value chat

/-- Null is unset for the known keys; any other key that is left is refused. -/
def mapOutputConfig (outputConfig outputFormat : Option Json) (chat : Fields) :
    Except String Fields := do
  let config := outputConfigKeys.foldl (fun config key =>
    if (config.lookup key).any isNull then removeField key config else config)
    ((outputConfig.bind Json.asObj).getD [])
  let rest := removeField "format" (removeField "effort" config)
  let chat ← insertFormat ((config.lookup "format").or outputFormat)
    (insertIfSome "reasoning_effort" (config.lookup "effort") chat)
  match rest with
  | [] => return chat
  | (key, _) :: _ => .error ("`output_config." ++ key ++
      "` is not supported when translating Anthropic Messages to Chat Completions")

def isTranslatableClientTool (tool : Json) : Bool :=
  (tool.get? "type").all fun kind => kind.asStr == some "custom"

def convertToolDefinition (tool : Json) : Option Json :=
  if isTranslatableClientTool tool then
    let name := (strAt tool "name").getD ""
    let description := (strAt tool "description").getD ""
    let parameters := (tool.get? "input_schema").getD (.obj [("type", .str "object")])
    let strict := (tool.get? "strict").bind asBool
    some (.obj [("type", .str "function"), ("function", .obj ([("name", .str name),
      ("description", .str description), ("parameters", parameters)] ++
        (strict.map fun strict => ("strict", .bool strict)).toList))])
  else none

def convertTools (tools : Option Json) (chat : Fields) : Fields :=
  let chatTools := ((tools.bind Json.asArr).getD []).filterMap convertToolDefinition
  if chatTools.isEmpty then chat else Json.setField "tools" (.arr chatTools) chat

def convertParallelToolCalls (toolChoice : Option Json) (chat : Fields) : Fields :=
  if (toolChoice.bind (·.get? "disable_parallel_tool_use")).bind asBool = some true then
    Json.setField "parallel_tool_calls" (.bool false) chat
  else chat

def toolChoiceKeyword : String → String
  | "any" => "required"
  | "none" => "none"
  | _ => "auto"

def objectToolChoice (choice : Fields) : Json :=
  let kind := (takeString "type" choice).getD ""
  match (if kind = "tool" then takeString "name" choice else none) with
  | some name => .obj [("type", .str "function"), ("function", .obj [("name", .str name)])]
  | none => .str (toolChoiceKeyword kind)

def convertToolChoice (toolChoice : Option Json) (hadTools : Bool) (chat : Fields) : Fields :=
  if hadTools && (chat.lookup "tools").isNone then chat
  else
    match toolChoice with
    | some (.str keyword) => Json.setField "tool_choice" (.str (toolChoiceKeyword keyword)) chat
    | some (.obj choice) => Json.setField "tool_choice" (objectToolChoice choice) chat
    | _ => chat

def consumedFields : List String :=
  ["model", "max_tokens", "system", "messages", "stream", "stream_options", "stop_sequences",
    "temperature", "top_p", "tools", "tool_choice", "metadata", "output_config", "output_format"]

/-- A field that was translated wins over one of the client's. -/
def forwardUnmappedFields (body chat : Fields) : Fields :=
  body.foldl (fun chat field => insertAbsent field.1 field.2 chat) chat

/-- No lossy feature is allowed: nothing is degraded before the validation. -/
def transformRequest (value : Json) : Except String Json :=
  match value with
  | .obj body => do
    validateFaithfulRequest value
    rejectUnrepresentableFields value
    let chat := insertIfSome "model" (body.lookup "model") []
    let chat := Json.setField "messages"
      (buildMessages (body.lookup "system") (body.lookup "messages")) chat
    let chat := insertIfSome "max_completion_tokens" (body.lookup "max_tokens") chat
    let chat := convertStream (body.lookup "stream") (body.lookup "stream_options") chat
    let chat := mapParameters (body.lookup "stop_sequences") (body.lookup "temperature")
      (body.lookup "top_p") chat
    let chat := mapMetadata digest (body.lookup "metadata") chat
    let chat ← mapOutputConfig (body.lookup "output_config") (body.lookup "output_format") chat
    let chat := convertTools (body.lookup "tools") chat
    let chat := convertParallelToolCalls (body.lookup "tool_choice") chat
    let chat := convertToolChoice (body.lookup "tool_choice") (body.lookup "tools").isSome chat
    let left := (unrepresentableFields ++ unmappableFields ++ consumedFields).foldl
      (fun body key => removeField key body) body
    return .obj (forwardUnmappedFields left chat)
  | _ => .error "request body is not a JSON object"

end Request

section Units

/-- What a conversation says, piece by piece. -/
inductive ContentUnit where
  | text (role text : String)
  | image (role url : String)
  | toolCall (id name arguments : String)
  | toolResult (callId text : String)
  deriving DecidableEq

def readAll {α β : Type} (read : α → Option (List β)) : List α → Option (List β)
  | [] => some []
  | x :: rest => (read x).bind fun units => (readAll read rest).map (units ++ ·)

def partUnits (role : String) (part : Json) : Option (List ContentUnit) :=
  match strAt part "type" with
  | some "text" => (strAt part "text").map fun text => [.text role text]
  | some "image_url" =>
    ((part.get? "image_url").bind (strAt · "url")).map fun url => [.image role url]
  | _ => none

def callUnits (call : Json) : Option (List ContentUnit) :=
  (strAt call "id").bind fun id =>
    (call.get? "function").bind fun function =>
      (strAt function "name").bind fun name =>
        (strAt function "arguments").map fun arguments => [.toolCall id name arguments]

def contentUnits (role : String) : Option Json → Option (List ContentUnit)
  | none => some []
  | some (.str text) => some [.text role text]
  | some (.arr parts) => readAll (partUnits role) parts
  | some _ => none

def callsUnits : Option Json → Option (List ContentUnit)
  | none => some []
  | some (.arr calls) => readAll callUnits calls
  | some _ => none

def chatUnits (message : Json) : Option (List ContentUnit) :=
  (strAt message "role").bind fun role =>
    if role = "tool" then
      (strAt message "tool_call_id").bind fun callId =>
        (strAt message "content").map fun text => [.toolResult callId text]
    else
      (contentUnits role (message.get? "content")).bind fun said =>
        (callsUnits (message.get? "tool_calls")).map (said ++ ·)

def textOfBlock (block : Json) : Option String :=
  if strAt block "type" = some "text" then strAt block "text" else none

def imageUrl (source : Json) : Option String :=
  match strAt source "type" with
  | some "base64" =>
    (strAt source "media_type").bind fun mediaType =>
      (strAt source "data").map fun data => "data:" ++ mediaType ++ ";base64," ++ data
  | some "url" => strAt source "url"
  | _ => none

def resultText : Option Json → Option String
  | none => some ""
  | some (.str text) => some text
  | some (.arr parts) =>
    (readAll (fun part => (textOfBlock part).map ([·])) parts).map "\n".intercalate
  | some _ => none

/-- An input that is not there is an empty object. -/
def blockUnits (role : String) (block : Json) : Option (List ContentUnit) :=
  match strAt block "type" with
  | some "text" => (strAt block "text").map fun text => [.text role text]
  | some "image" => ((block.get? "source").bind imageUrl).map fun url => [.image role url]
  | some "tool_use" =>
    (strAt block "id").bind fun id =>
      (strAt block "name").map fun name =>
        [.toolCall id name ((block.get? "input").getD (.obj [])).text]
  | some "tool_result" =>
    (strAt block "tool_use_id").bind fun callId =>
      (resultText (block.get? "content")).map fun text => [.toolResult callId text]
  | _ => none

def ContentUnit.asText : ContentUnit → Option String
  | .text _ said => some said
  | _ => none

/-- The texts become one text, placed before everything else. -/
def gathered (role : String) (units : List ContentUnit) : List ContentUnit :=
  let texts := units.filterMap ContentUnit.asText
  (if texts = [] then [] else [.text role (String.join texts)]) ++
    units.filter fun unit => unit.asText.isNone

/-- What a message of the request says: in order, but for the texts beside tool calls. -/
def messageUnits (message : Json) : Option (List ContentUnit) :=
  (strAt message "role").bind fun role =>
    match message.get? "content" with
    | some (.str text) => some [.text role text]
    | some (.arr blocks) =>
      (readAll (blockUnits role) blocks).map fun units =>
        if blocks.any isToolUse then gathered role units else units
    | _ => none

def requestUnits (body : Json) : Option (List ContentUnit) :=
  match body.get? "messages" with
  | none => some []
  | some (.arr messages) => readAll messageUnits messages
  | some _ => none

/-- The system text, or the texts of the system blocks joined by line feeds. -/
def systemText (body : Json) : Option String :=
  match body.get? "system" with
  | none => some ""
  | some .null => some ""
  | some (.str text) => some text
  | some (.arr blocks) =>
    (readAll (fun block => (textOfBlock block).map ([·])) blocks).map "\n".intercalate
  | some _ => none

end Units

section Reading

theorem checkAll_ok {α : Type} {check : α → Except String Unit} {xs : List α}
    (h : checkAll check xs = .ok ()) : ∀ x ∈ xs, check x = .ok () := by
  induction xs with
  | nil => exact fun x hx => absurd hx not_mem_nil
  | cons x rest ih =>
    obtain ⟨_, hx, hrest⟩ := bind_ok h
    exact forall_mem_cons.mpr ⟨hx, ih hrest⟩

variable {α β : Type} {read : α → Option (List β)}

theorem readAll_cons {x : α} {rest : List α} {first others : List β} (hx : read x = some first)
    (hrest : readAll read rest = some others) :
    readAll read (x :: rest) = some (first ++ others) := by
  rw [readAll, hx, hrest]
  rfl

theorem readAll_append {xs ys : List α} {first others : List β} (hxs : readAll read xs = some first)
    (hys : readAll read ys = some others) : readAll read (xs ++ ys) = some (first ++ others) := by
  induction xs generalizing first with
  | nil =>
    cases hxs
    exact hys
  | cons x rest ih =>
    rw [readAll] at hxs
    obtain ⟨units, hx, hmap⟩ := bind_eq_some_iff.mp hxs
    obtain ⟨more, hrest, rfl⟩ := map_eq_some_iff.mp hmap
    rw [append_assoc]
    exact readAll_cons hx (ih hrest)

theorem readAll_singleton {x : α} {units : List β} (h : read x = some units) :
    readAll read [x] = some units := by
  have hread : readAll read [x] = some (units ++ []) := readAll_cons h rfl
  rwa [append_nil] at hread

theorem readAll_of_forall {γ : Type} {one : α → Option γ} {xs : List α}
    (h : ∀ x ∈ xs, (one x).isSome = true) :
    readAll (fun x => (one x).map ([·])) xs = some (xs.filterMap one) := by
  induction xs with
  | nil => rfl
  | cons x rest ih =>
    obtain ⟨hx, hrest⟩ := forall_mem_cons.mp h
    obtain ⟨value, hvalue⟩ := isSome_iff_exists.mp hx
    rw [filterMap_cons_some hvalue]
    exact readAll_cons (by rw [hvalue]; rfl) (ih hrest)

theorem get?_eq_lookup (value : Json) (key : String) :
    value.get? key = (value.asObj.getD []).lookup key := by
  cases value <;> rfl

theorem lookup_without {key other : String} (hne : other ≠ key) (fields : Fields) :
    (without key fields).lookup other = fields.lookup other := by
  induction fields with
  | nil => rfl
  | cons field rest ih =>
    obtain ⟨k, value⟩ := field
    rw [without, filter_cons]
    by_cases hk : k = key
    · subst hk
      simp only [bne_self_eq_false, Bool.false_eq_true, if_false]
      rw [lookup_cons, beq_false_of_ne hne]
      exact ih
    · rw [if_pos (by simpa using hk), lookup_cons, lookup_cons]
      split
      · rfl
      · exact ih

theorem takeString_without {key other : String} (hne : other ≠ key) (fields : Fields) :
    takeString other (without key fields) = takeString other fields := by
  rw [takeString, takeString, lookup_without hne]

theorem takeString_eq (value : Json) (key : String) :
    takeString key (value.asObj.getD []) = strAt value key := by
  rw [takeString, strAt, get?_eq_lookup]

theorem eq_obj_of_strAt {value : Json} {key text : String} (h : strAt value key = some text) :
    ∃ fields, value = .obj fields := by
  cases value with
  | obj fields => exact ⟨fields, rfl⟩
  | _ => cases h

theorem strAt_of_isString {value : Json} {key : String}
    (h : (value.get? key).any isString = true) : ∃ text, strAt value key = some text := by
  rw [strAt]
  rcases hget : value.get? key with _ | found
  · rw [hget] at h
    cases h
  · rw [hget] at h
    exact isSome_iff_exists.mp h

end Reading

section Accepted

theorem textBlock_text {block : Json} (h : textBlockIsSupported block = true) :
    strAt block "type" = some "text" ∧ ∃ text, strAt block "text" = some text := by
  simp only [textBlockIsSupported, Bool.and_eq_true, beq_iff_eq] at h
  exact ⟨h.1.1.1.1, strAt_of_isString h.1.1.1.2⟩

theorem textBlock_read {block : Json} (h : textBlockIsSupported block = true) :
    (textOfBlock block).isSome = true := by
  obtain ⟨hkind, text, htext⟩ := textBlock_text h
  rw [textOfBlock, if_pos hkind, htext]
  rfl

theorem convertImageSource_supported {source : Json} (h : imageSourceIsSupported source = true) :
    ∃ url, convertImageSource source = some url ∧ imageUrl source = some url := by
  unfold imageSourceIsSupported at h
  split at h
  · rename_i hkind
    obtain ⟨fields, rfl⟩ := eq_obj_of_strAt hkind
    have htake := takeString_eq (.obj fields)
    simp only [Bool.and_eq_true] at h
    obtain ⟨mediaType, hmedia⟩ := strAt_of_isString h.1.1
    obtain ⟨data, hdata⟩ := strAt_of_isString h.1.2
    refine ⟨"data:" ++ mediaType ++ ";base64," ++ data, ?_, ?_⟩
    · simp only [Json.asObj, getD_some] at htake
      rw [convertImageSource, Json.asObj, bind_some, htake, hkind, bind_some,
        if_pos rfl, takeString_without (by decide), htake, hmedia, bind_some,
        takeString_without (by decide), takeString_without (by decide), htake, hdata]
      rfl
    · simp only [imageUrl, hkind, hmedia, hdata, bind_some, map_some]
  · rename_i hkind
    obtain ⟨fields, rfl⟩ := eq_obj_of_strAt hkind
    have htake := takeString_eq (.obj fields)
    simp only [Bool.and_eq_true] at h
    obtain ⟨url, hurl⟩ := strAt_of_isString h.1
    refine ⟨url, ?_, ?_⟩
    · simp only [Json.asObj, getD_some] at htake
      rw [convertImageSource, Json.asObj, bind_some, htake, hkind, bind_some,
        if_neg (by decide), if_pos rfl, takeString_without (by decide), htake, hurl]
    · simp only [imageUrl, hkind, hurl]
  · cases h

inductive Accepted (hasToolUse : Bool) (role : String) (block : Json) : Prop
  | text (kind : strAt block "type" = some "text") (supported : textBlockIsSupported block = true)
  | image (kind : strAt block "type" = some "image") (user : role = "user")
      (alone : hasToolUse = false) (source : Json) (found : block.get? "source" = some source)
      (supported : imageSourceIsSupported source = true)
  | toolUse (kind : strAt block "type" = some "tool_use") (assistant : role = "assistant")
      (supported : toolUseIsSupported block = true)
  | toolResult (kind : strAt block "type" = some "tool_result") (user : role = "user")
      (supported : toolResultIsSupported block = true)

theorem accepted_of_validateBlock {hasToolUse : Bool} {role : String} {block : Json}
    (h : validateBlock hasToolUse role block = .ok ()) : Accepted hasToolUse role block := by
  unfold validateBlock at h
  split at h
  · cases h
  rename_i kind hkind
  split_ifs at h with htext himage huse huses hresult hresults
  · exact .text (htext.1 ▸ hkind) htext.2
  · split at h
    · cases h
    · rename_i source hsource
      split_ifs at h with hsupported
      simp only [imageBlockIsSupported, Bool.and_eq_true] at hsupported
      exact .image (himage.1 ▸ hkind) himage.2.1 himage.2.2 source hsource hsupported.1.1
  · exact .toolUse (huse.1 ▸ hkind) huse.2 huses
  · exact .toolResult (hresult.1 ▸ hkind) hresult.2 hresults

theorem accepted_of_validateContentBlocks {role : String} {blocks : List Json}
    (h : validateContentBlocks blocks role = .ok ()) :
    ∀ block ∈ blocks, Accepted (blocks.any isToolUse) role block := fun block hblock =>
  accepted_of_validateBlock (checkAll_ok h block hblock)

end Accepted

section Blocks

variable {block : Json}

theorem convertBlock_eq {role : String} {d : Draft} {kind : String}
    (hkind : strAt block "type" = some kind) :
    convertBlock role d block =
      convertSingleBlock role kind (without "type" (block.asObj.getD [])) d := by
  rw [convertBlock, takeString_eq, hkind]
  rfl

theorem takeString_block {key : String} (hne : key ≠ "type") :
    takeString key (without "type" (block.asObj.getD [])) = strAt block key := by
  rw [takeString_without hne, takeString_eq]

theorem lookup_block {key : String} (hne : key ≠ "type") :
    (without "type" (block.asObj.getD [])).lookup key = block.get? key := by
  rw [lookup_without hne, get?_eq_lookup]

theorem convertBlock_text (role : String) (d : Draft) (h : textBlockIsSupported block = true) :
    ∃ text, convertBlock role d block = d.part [textContentPart text] ∧
      blockUnits role block = some [.text role text] := by
  obtain ⟨hkind, text, htext⟩ := textBlock_text h
  refine ⟨text, ?_, ?_⟩
  · rw [convertBlock_eq hkind, convertSingleBlock, takeString_block (by decide), htext]
    rfl
  · simp only [blockUnits, hkind, htext, map_some]

theorem convertBlock_image (role : String) (d : Draft) {source : Json}
    (hkind : strAt block "type" = some "image")
    (hsource : block.get? "source" = some source) (h : imageSourceIsSupported source = true) :
    ∃ url, convertBlock role d block = d.part [imageContentPart url] ∧
      blockUnits role block = some [.image role url] := by
  obtain ⟨url, hconvert, hurl⟩ := convertImageSource_supported h
  refine ⟨url, ?_, ?_⟩
  · rw [convertBlock_eq hkind, convertSingleBlock, convertImageBlock, lookup_block (by decide),
      hsource, bind_some, hconvert]
    rfl
  · simp only [blockUnits, hkind, hsource, bind_some, hurl, map_some]

def callJson (id name arguments : String) : Json :=
  .obj [("id", .str id), ("type", .str "function"),
    ("function", .obj [("name", .str name), ("arguments", .str arguments)])]

theorem convertBlock_toolUse (role : String) (d : Draft)
    (hkind : strAt block "type" = some "tool_use")
    (h : toolUseIsSupported block = true) :
    ∃ id name arguments, convertBlock role d block =
        { d with toolCalls := d.toolCalls ++ [callJson id name arguments] } ∧
      blockUnits role block = some [.toolCall id name arguments] := by
  simp only [toolUseIsSupported, Bool.and_eq_true] at h
  obtain ⟨id, hid⟩ := strAt_of_isString h.1.1.1.1.1
  obtain ⟨name, hname⟩ := strAt_of_isString h.1.1.1.1.2
  refine ⟨id, name, ((block.get? "input").getD (.obj [])).text, ?_, ?_⟩
  · rw [convertBlock_eq hkind, convertSingleBlock, convertToolUseBlock,
      takeString_block (by decide), takeString_block (by decide), lookup_block (by decide), hid,
      hname]
    cases block.get? "input" <;> rfl
  · simp only [blockUnits, hkind, hid, hname, bind_some, map_some]

theorem splitToolResultPart_text {part : Json} (h : textBlockIsSupported part = true) :
    splitToolResultPart part = ((textOfBlock part).toList, []) := by
  obtain ⟨hkind, text, htext⟩ := textBlock_text h
  obtain ⟨fields, rfl⟩ := eq_obj_of_strAt hkind
  have htake := takeString_eq (.obj fields)
  simp only [Json.asObj, getD_some] at htake
  simp only [splitToolResultPart, Json.asObj, htake, hkind, textOfBlock, if_true,
    takeString_without (show "text" ≠ "type" by decide)]

theorem splitToolResultContent_text {content : Option Json}
    (h : resultContentIsText content = true) :
    ∃ text, splitToolResultContent content = (text, []) ∧ resultText content = some text := by
  unfold resultContentIsText at h
  split at h
  · exact ⟨"", rfl, rfl⟩
  · exact ⟨_, rfl, rfl⟩
  · rename_i parts
    have hparts := all_eq_true.mp h
    refine ⟨"\n".intercalate (parts.filterMap textOfBlock), ?_, ?_⟩
    · rw [splitToolResultContent, splitToolResultParts]
      have hsplit : ∀ part ∈ parts,
          splitToolResultPart part = ((textOfBlock part).toList, []) :=
        fun part hpart => splitToolResultPart_text (hparts part hpart)
      have htexts : parts.flatMap (fun part => (splitToolResultPart part).1) =
          parts.filterMap textOfBlock := by
        rw [filterMap_eq_flatMap_toList]
        exact flatMap_congr fun part hpart => by rw [hsplit part hpart]
      have himages : parts.flatMap (fun part => (splitToolResultPart part).2) = [] :=
        flatMap_eq_nil_iff.mpr fun part hpart => by rw [hsplit part hpart]
      rw [htexts, himages]
    · rw [resultText, readAll_of_forall fun part hpart => textBlock_read (hparts part hpart)]
      rfl
  · cases h

theorem convertBlock_toolResult (role : String) (d : Draft)
    (hkind : strAt block "type" = some "tool_result")
    (h : toolResultIsSupported block = true) :
    ∃ callId text, convertBlock role d block =
        { flushContentParts role d with
          messages := (flushContentParts role d).messages ++ [toolMessage callId text] } ∧
      blockUnits role block = some [.toolResult callId text] := by
  simp only [toolResultIsSupported, Bool.and_eq_true, bne_iff_ne] at h
  obtain ⟨callId, hid⟩ := strAt_of_isString h.1.1.1.1.1.1
  obtain ⟨text, hsplit, htext⟩ := splitToolResultContent_text h.1.1.1.1.1.2
  refine ⟨callId, text, ?_, ?_⟩
  · rw [convertBlock_eq hkind, convertSingleBlock, convertToolResultBlock]
    simp only [takeString_block (show "tool_use_id" ≠ "type" by decide),
      lookup_block (show "is_error" ≠ "type" by decide),
      lookup_block (show "content" ≠ "type" by decide), hid, hsplit,
      beq_eq_false_iff_ne.mpr h.1.1.1.1.2]
    rfl
  · simp only [blockUnits, hkind, hid, htext, bind_some, map_some]

end Blocks

section Written

variable {role : String}

theorem chatUnits_textMessage (hrole : role ≠ "tool") (text : String) :
    chatUnits (textMessage role text) = some [.text role text] := by
  have hat : strAt (textMessage role text) "role" = some role := rfl
  rw [chatUnits, hat, bind_some, if_neg hrole]
  rfl

theorem chatUnits_parts (hrole : role ≠ "tool") (parts : List Json) :
    chatUnits (.obj [("role", .str role), ("content", .arr parts)]) =
      readAll (partUnits role) parts := by
  have hat : strAt (.obj [("role", .str role), ("content", .arr parts)]) "role" = some role := rfl
  have hcontent : Json.get? "content" (.obj [("role", .str role), ("content", .arr parts)]) =
    some (.arr parts) := rfl
  have hcalls : Json.get? "tool_calls" (.obj [("role", .str role), ("content", .arr parts)]) =
    none := rfl
  rw [chatUnits, hat, bind_some, if_neg hrole, hcontent, hcalls, contentUnits, callsUnits]
  cases readAll (partUnits role) parts with
  | none => rfl
  | some units => exact congrArg some (append_nil units)

theorem chatUnits_toolMessage (callId text : String) :
    chatUnits (toolMessage callId text) = some [.toolResult callId text] := rfl

theorem partUnits_of_takeTextPart {part : Json} {text : String}
    (h : takeTextPart part = some text) : partUnits role part = some [.text role text] := by
  rw [takeTextPart] at h
  split_ifs at h with hkind
  simp only [partUnits, hkind, h, map_some]

theorem readAll_flushed (hrole : role ≠ "tool") {parts : List Json} {units : List ContentUnit}
    (h : readAll (partUnits role) parts = some units) :
    readAll chatUnits (flushed role parts) = some units := by
  unfold flushed
  split
  · exact h
  · split
    · rename_i part _ text htext
      have hpart : readAll (partUnits role) [part] = some [.text role text] :=
        readAll_singleton (partUnits_of_takeTextPart htext)
      rw [hpart] at h
      cases h
      exact readAll_singleton (chatUnits_textMessage hrole text)
    · exact readAll_singleton ((chatUnits_parts hrole _).trans h)
  · exact readAll_singleton ((chatUnits_parts hrole _).trans h)

def Written (role : String) (prior : List Json) (d : Draft) (units : List ContentUnit) : Prop :=
  ∃ new sent kept, d.messages = prior ++ new ∧ readAll chatUnits new = some sent ∧
    readAll (partUnits role) d.contentParts = some kept ∧ units = sent ++ kept

variable {prior : List Json} {d : Draft} {units : List ContentUnit}

theorem Written.part (h : Written role prior d units) {part : Json} {more : List ContentUnit}
    (hpart : partUnits role part = some more) :
    Written role prior (d.part [part]) (units ++ more) := by
  obtain ⟨new, sent, kept, hmessages, hnew, hkept, rfl⟩ := h
  exact ⟨new, sent, kept ++ more, hmessages, hnew, readAll_append hkept (readAll_singleton hpart),
    append_assoc ..⟩

theorem Written.flush (hrole : role ≠ "tool") (h : Written role prior d units) :
    ∃ new, (flushContentParts role d).messages = prior ++ new ∧
      readAll chatUnits new = some units := by
  obtain ⟨new, sent, kept, hmessages, hnew, hkept, rfl⟩ := h
  refine ⟨new ++ flushed role d.contentParts, ?_, readAll_append hnew (readAll_flushed hrole hkept)⟩
  rw [flushContentParts, hmessages, append_assoc]

theorem Written.message (hrole : role ≠ "tool") (h : Written role prior d units) {message : Json}
    {more : List ContentUnit} (hmessage : chatUnits message = some more) :
    Written role prior { flushContentParts role d with
      messages := (flushContentParts role d).messages ++ [message] } (units ++ more) := by
  obtain ⟨new, hnew, hunits⟩ := h.flush hrole
  refine ⟨new ++ [message], units ++ more, [], ?_,
    readAll_append hunits (readAll_singleton hmessage), rfl, (append_nil _).symm⟩
  rw [hnew, append_assoc]

end Written

section Plain

variable {role : String} {prior : List Json} {hasToolUse : Bool}

/-- One accepted block beside tool calls: its units come after those written, no call is kept. -/
theorem convertBlock_written (hrole : role ≠ "tool") {block : Json} {d : Draft}
    {units : List ContentUnit} (haccepted : Accepted hasToolUse role block)
    (hplain : isToolUse block = false) (hcalls : d.toolCalls = [])
    (h : Written role prior d units) :
    ∃ more, blockUnits role block = some more ∧
      Written role prior (convertBlock role d block) (units ++ more) ∧
      (convertBlock role d block).toolCalls = [] := by
  cases haccepted with
  | text kind supported =>
    obtain ⟨text, hconvert, hunits⟩ := convertBlock_text role d supported
    exact ⟨_, hunits, hconvert ▸ h.part rfl, hconvert ▸ hcalls⟩
  | image kind _ _ source found supported =>
    obtain ⟨url, hconvert, hunits⟩ :=
      convertBlock_image role d kind found supported
    exact ⟨_, hunits, hconvert ▸ h.part rfl, hconvert ▸ hcalls⟩
  | toolUse kind =>
    rw [isToolUse, kind] at hplain
    cases hplain
  | toolResult kind _ supported =>
    obtain ⟨callId, text, hconvert, hunits⟩ :=
      convertBlock_toolResult role d kind supported
    exact ⟨_, hunits, hconvert ▸ h.message hrole (chatUnits_toolMessage callId text),
      hconvert ▸ hcalls⟩

theorem foldl_written (hrole : role ≠ "tool") {blocks : List Json} {d : Draft}
    {units : List ContentUnit} (haccepted : ∀ block ∈ blocks, Accepted hasToolUse role block)
    (hplain : ∀ block ∈ blocks, isToolUse block = false) (hcalls : d.toolCalls = [])
    (h : Written role prior d units) :
    ∃ more, readAll (blockUnits role) blocks = some more ∧
      Written role prior (blocks.foldl (convertBlock role) d) (units ++ more) ∧
      (blocks.foldl (convertBlock role) d).toolCalls = [] := by
  induction blocks generalizing d units with
  | nil => exact ⟨[], rfl, by rwa [append_nil], hcalls⟩
  | cons block rest ih =>
    obtain ⟨hblock, hrest⟩ := forall_mem_cons.mp haccepted
    obtain ⟨hpb, hpr⟩ := forall_mem_cons.mp hplain
    obtain ⟨more, hmore, hwritten, hnone⟩ := convertBlock_written hrole hblock hpb hcalls h
    obtain ⟨others, hothers, hall, hend⟩ := ih hrest hpr hnone hwritten
    exact ⟨more ++ others, readAll_cons hmore hothers, append_assoc units more others ▸ hall, hend⟩

theorem written_nil (prior : List Json) : Written role prior ⟨prior, [], []⟩ [] :=
  ⟨[], [], [], (append_nil _).symm, rfl, rfl, rfl⟩

theorem convertContentBlocks_plain (prior : List Json) (hrole : role ≠ "tool") {blocks : List Json}
    (haccepted : ∀ block ∈ blocks, Accepted hasToolUse role block)
    (hplain : ∀ block ∈ blocks, isToolUse block = false) :
    ∃ new units, convertContentBlocks prior role blocks = prior ++ new ∧
      readAll chatUnits new = some units ∧ readAll (blockUnits role) blocks = some units := by
  obtain ⟨units, hunits, hwritten, hcalls⟩ := foldl_written hrole haccepted hplain
    rfl (written_nil prior)
  obtain ⟨new, hnew, hread⟩ := hwritten.flush hrole
  refine ⟨new, units, ?_, hread, hunits⟩
  rw [convertContentBlocks, finalizeContentBlocks, if_neg fun h => h.2 hcalls, hnew]

end Plain

section Calls

variable {prior : List Json} {hasToolUse : Bool}

def ContentUnit.call? : ContentUnit → Option Json
  | .toolCall id name arguments => some (callJson id name arguments)
  | _ => none

/-- Beside tool calls the assistant says texts only. -/
def ContentUnit.IsSpeech : ContentUnit → Prop
  | .text role _ => role = "assistant"
  | .toolCall .. => True
  | _ => False

/-- The messages stay; the texts and the calls are collected apart. -/
structure Collected (prior : List Json) (d : Draft) (units : List ContentUnit) : Prop where
  messages : d.messages = prior
  parts : d.contentParts = (units.filterMap ContentUnit.asText).map textContentPart
  calls : d.toolCalls = units.filterMap ContentUnit.call?
  speech : ∀ unit ∈ units, unit.IsSpeech

theorem convertBlock_collected {block : Json} {d : Draft} {units : List ContentUnit}
    (haccepted : Accepted hasToolUse "assistant" block) (h : Collected prior d units) :
    ∃ unit, blockUnits "assistant" block = some [unit] ∧
      Collected prior (convertBlock "assistant" d block) (units ++ [unit]) ∧
      (isToolUse block = true → unit.asText = none) := by
  obtain ⟨hmessages, hparts, hcalls, hspeech⟩ := h
  cases haccepted with
  | text kind supported =>
    obtain ⟨text, hconvert, hunits⟩ := convertBlock_text "assistant" d supported
    refine ⟨_, hunits, ⟨?_, ?_, ?_, ?_⟩, ?_⟩
    · rw [hconvert]
      exact hmessages
    · rw [hconvert, filterMap_append, map_append, ← hparts]
      rfl
    · rw [hconvert, filterMap_append, ← hcalls]
      exact (append_nil _).symm
    · exact forall_mem_append.mpr ⟨hspeech, forall_mem_singleton.mpr rfl⟩
    · intro huse
      rw [isToolUse, kind] at huse
      cases huse
  | image _ user => exact absurd user (by decide)
  | toolUse kind _ supported =>
    obtain ⟨id, name, arguments, hconvert, hunits⟩ :=
      convertBlock_toolUse "assistant" d kind supported
    refine ⟨_, hunits, ⟨?_, ?_, ?_, ?_⟩, fun _ => rfl⟩
    · rw [hconvert]
      exact hmessages
    · rw [hconvert, filterMap_append, map_append, ← hparts]
      exact (append_nil _).symm
    · rw [hconvert, filterMap_append, ← hcalls]
      rfl
    · exact forall_mem_append.mpr ⟨hspeech, forall_mem_singleton.mpr trivial⟩
  | toolResult _ user => exact absurd user (by decide)

theorem foldl_collected {blocks : List Json} {d : Draft} {units : List ContentUnit}
    (haccepted : ∀ block ∈ blocks, Accepted hasToolUse "assistant" block)
    (h : Collected prior d units) :
    ∃ more, readAll (blockUnits "assistant") blocks = some more ∧
      Collected prior (blocks.foldl (convertBlock "assistant") d) (units ++ more) ∧
      (blocks.any isToolUse = true → ∃ unit ∈ more, unit.asText = none) := by
  induction blocks generalizing d units with
  | nil => exact ⟨[], rfl, by rwa [append_nil], fun hany => absurd hany (by decide)⟩
  | cons block rest ih =>
    obtain ⟨hblock, hrest⟩ := forall_mem_cons.mp haccepted
    obtain ⟨unit, hunit, hcollected, huse⟩ := convertBlock_collected hblock h
    obtain ⟨others, hothers, hall, hany⟩ := ih hrest hcollected
    refine ⟨unit :: others, readAll_cons hunit hothers, ?_, fun h => ?_⟩
    · rwa [append_assoc] at hall
    · rw [any_cons, Bool.or_eq_true] at h
      rcases h with h | h
      · exact ⟨unit, mem_cons_self, huse h⟩
      · obtain ⟨other, hmem, hother⟩ := hany h
        exact ⟨other, mem_cons_of_mem _ hmem, hother⟩

theorem foldl_joined (texts : List String) (joined : String) :
    (texts.map textContentPart).foldl (fun joined part =>
      match takeTextPart part with
      | none => joined
      | some text => some (joined.elim text (· ++ text))) (some joined) =
      some (joined ++ String.join texts) := by
  induction texts generalizing joined with
  | nil => simp [String.join]
  | cons text rest ih =>
    have htake : takeTextPart (textContentPart text) = some text := rfl
    simp only [map_cons, foldl_cons, htake, elim_some]
    rw [ih, String.join_cons, String.append_assoc]

theorem takeJoinedText_texts (texts : List String) :
    takeJoinedText (texts.map textContentPart) =
      if texts = [] then none else some (String.join texts) := by
  cases texts with
  | nil => rfl
  | cons text rest =>
    have htake : takeTextPart (textContentPart text) = some text := rfl
    rw [takeJoinedText, map_cons, foldl_cons]
    simp only [htake, elim_none, foldl_joined, reduceCtorEq, if_false, String.join_cons]

theorem readAll_calls {units : List ContentUnit} (h : ∀ unit ∈ units, unit.IsSpeech) :
    readAll callUnits (units.filterMap ContentUnit.call?) =
      some (units.filter fun unit => unit.asText.isNone) := by
  induction units with
  | nil => rfl
  | cons unit rest ih =>
    obtain ⟨hunit, hrest⟩ := forall_mem_cons.mp h
    cases unit with
    | text role text => exact ih hrest
    | toolCall id name arguments =>
      have hcall : callUnits (callJson id name arguments) =
          some [.toolCall id name arguments] := rfl
      exact readAll_cons hcall (ih hrest)
    | image => exact hunit.elim
    | toolResult => exact hunit.elim

theorem chatUnits_callMessage (content : Option String) {calls : List Json}
    {units : List ContentUnit} (h : readAll callUnits calls = some units) :
    chatUnits (callMessage content calls) =
      some ((content.map fun text => .text "assistant" text).toList ++ units) := by
  have hrole : strAt (callMessage content calls) "role" = some "assistant" := by
    cases content <;> rfl
  have hcontent : (callMessage content calls).get? "content" = content.map .str := by
    cases content <;> rfl
  have hcalls : (callMessage content calls).get? "tool_calls" = some (.arr calls) := by
    cases content <;> rfl
  rw [chatUnits, hrole, bind_some, if_neg (by decide), hcontent, hcalls, callsUnits, h]
  cases content <;> rfl

theorem calls_ne_nil {units : List ContentUnit} (hspeech : ∀ unit ∈ units, unit.IsSpeech)
    (h : ∃ unit ∈ units, unit.asText = none) : units.filterMap ContentUnit.call? ≠ [] := by
  obtain ⟨unit, hmem, htext⟩ := h
  have hunit := hspeech unit hmem
  cases unit with
  | toolCall id name arguments =>
    exact ne_nil_of_mem (mem_filterMap.mpr ⟨_, hmem, rfl⟩)
  | text => cases htext
  | image => exact hunit.elim
  | toolResult => exact hunit.elim

/-- An assistant message with tool calls becomes one message: the texts in one, then the calls. -/
theorem convertContentBlocks_calls (prior : List Json) {blocks : List Json}
    (haccepted : ∀ block ∈ blocks, Accepted hasToolUse "assistant" block)
    (huse : blocks.any isToolUse = true) :
    ∃ new units, convertContentBlocks prior "assistant" blocks = prior ++ new ∧
      readAll chatUnits new = some (gathered "assistant" units) ∧
      readAll (blockUnits "assistant") blocks = some units := by
  have hstart : Collected prior ⟨prior, [], []⟩ [] :=
    ⟨rfl, rfl, rfl, fun _ h => absurd h not_mem_nil⟩
  obtain ⟨units, hunits, hcollected, hany⟩ :=
    foldl_collected haccepted hstart
  rw [nil_append] at hcollected
  refine ⟨[callMessage (takeJoinedText ((units.filterMap ContentUnit.asText).map textContentPart))
    (units.filterMap ContentUnit.call?)], units, ?_, ?_, hunits⟩
  · have hcalls := calls_ne_nil hcollected.speech (hany huse)
    rw [convertContentBlocks, finalizeContentBlocks, hcollected.calls, if_pos ⟨rfl, hcalls⟩,
      hcollected.messages, hcollected.parts]
  · rw [takeJoinedText_texts]
    refine readAll_singleton ((chatUnits_callMessage _ (readAll_calls hcollected.speech)).trans ?_)
    rw [gathered]
    split <;> rfl

end Calls

section Requests

variable (prior : List Json)

theorem role_of_accepted {role : String} {block : Json} {hasToolUse : Bool}
    (h : Accepted hasToolUse role block) (huse : isToolUse block = true) : role = "assistant" := by
  rw [isToolUse, beq_iff_eq] at huse
  cases h with
  | toolUse _ assistant => exact assistant
  | text kind | image kind | toolResult kind =>
    rw [huse] at kind
    exact absurd kind (by decide)

theorem convertMessage_units {message : Json} (h : validateMessage message = .ok ()) :
    ∃ new units, convertMessage prior message = prior ++ new ∧
      readAll chatUnits new = some units ∧ messageUnits message = some units := by
  unfold validateMessage at h
  split_ifs at h
  split at h
  · cases h
  rename_i role hrole
  split_ifs at h with hknown
  have htool : role ≠ "tool" := by
    rintro rfl
    exact absurd hknown (by decide)
  rw [convertMessage, messageUnits, hrole]
  simp only [bind_some]
  split at h
  · rename_i text _
    exact ⟨_, _, rfl, readAll_singleton (chatUnits_textMessage htool text), rfl⟩
  · rename_i blocks _
    have haccepted := accepted_of_validateContentBlocks h
    by_cases huse : blocks.any isToolUse = true
    · obtain ⟨block, hblock, hcall⟩ := any_eq_true.mp huse
      obtain rfl := role_of_accepted (haccepted block hblock) hcall
      obtain ⟨new, units, hnew, hread, hunits⟩ :=
        convertContentBlocks_calls prior haccepted huse
      exact ⟨new, _, hnew, hread, by rw [hunits, map_some, if_pos huse]⟩
    · obtain ⟨new, units, hnew, hread, hunits⟩ :=
        convertContentBlocks_plain prior htool haccepted fun block hblock =>
          Bool.eq_false_iff.mpr fun hcall => huse (any_eq_true.mpr ⟨block, hblock, hcall⟩)
      exact ⟨new, _, hnew, hread, by rw [hunits, map_some, if_neg huse]⟩
  · cases h

theorem foldl_messages {messages : List Json}
    (h : ∀ message ∈ messages, validateMessage message = .ok ()) :
    ∃ new units, messages.foldl (convertMessage) prior = prior ++ new ∧
      readAll chatUnits new = some units ∧ readAll messageUnits messages = some units := by
  induction messages generalizing prior with
  | nil => exact ⟨[], [], (append_nil _).symm, rfl, rfl⟩
  | cons message rest ih =>
    obtain ⟨hmessage, hrest⟩ := forall_mem_cons.mp h
    obtain ⟨new, units, hnew, hread, hunits⟩ :=
      convertMessage_units prior hmessage
    obtain ⟨others, more, hothers, hmore, hall⟩ := ih (prior ++ new) hrest
    refine ⟨new ++ others, units ++ more, ?_, readAll_append hread hmore, readAll_cons hunits hall⟩
    rw [foldl_cons, hnew, hothers, append_assoc]

theorem convertMessages_units {body : Json} (h : validateMessages body = .ok ()) :
    ∃ new units, convertMessages prior (body.get? "messages") = prior ++ new ∧
      readAll chatUnits new = some units ∧ requestUnits body = some units := by
  unfold validateMessages at h
  rw [requestUnits]
  split at h
  · rename_i hget
    rw [hget]
    exact ⟨[], [], (append_nil _).symm, rfl, rfl⟩
  · rename_i messages hget
    rw [hget]
    exact foldl_messages prior (checkAll_ok h)
  · cases h

def systemMessages (content : String) : List Json :=
  if content = "" then [] else [textMessage "system" content]

theorem hoistSystem_text {body : Json} (h : validateSystem body = .ok ()) :
    ∃ content, systemText body = some content ∧
      hoistSystem (body.get? "system") = systemMessages content := by
  have hsent : ∀ content : String,
      (if content.isEmpty then [] else [textMessage "system" content]) = systemMessages content :=
    fun content => by simp only [systemMessages, String.isEmpty_iff]
  unfold validateSystem at h
  rw [systemText]
  split at h
  · rename_i hget
    rw [hget]
    exact ⟨"", rfl, rfl⟩
  · rename_i text hget
    rw [hget]
    exact ⟨text, rfl, hsent text⟩
  · rename_i hget
    rw [hget]
    exact ⟨"", rfl, rfl⟩
  · rename_i blocks hget
    split_ifs at h with hblocks
    have hread := all_eq_true.mp hblocks
    rw [hget]
    refine ⟨"\n".intercalate (blocks.filterMap textOfBlock), ?_, ?_⟩
    · simp only [readAll_of_forall fun block hblock => textBlock_read (hread block hblock),
        map_some]
    · rw [← hsent, hoistSystem, systemContent]
      have htexts : blocks.filterMap (fun block => block.asObj.bind (takeString "text")) =
          blocks.filterMap textOfBlock := by
        refine filterMap_congr fun block hblock => ?_
        obtain ⟨hkind, -⟩ := textBlock_text (hread block hblock)
        obtain ⟨fields, rfl⟩ := eq_obj_of_strAt hkind
        rw [textOfBlock, if_pos hkind]
        rfl
      rw [htexts]
  · cases h

section Fields

variable {chat : Fields} {messages : Json}

theorem messages_setField {key : String} (hne : "messages" ≠ key) (value : Json)
    (h : chat.lookup "messages" = some messages) :
    (Json.setField key value chat).lookup "messages" = some messages := by
  rwa [Json.lookup_setField_of_ne hne]

theorem messages_insertIfSome {key : String} (hne : "messages" ≠ key) (value : Option Json)
    (h : chat.lookup "messages" = some messages) :
    (insertIfSome key value chat).lookup "messages" = some messages := by
  cases value with
  | none => exact h
  | some value => exact messages_setField hne value h

theorem messages_convertStream (stream streamOptions : Option Json)
    (h : chat.lookup "messages" = some messages) :
    (convertStream stream streamOptions chat).lookup "messages" = some messages := by
  unfold convertStream
  split
  · exact h
  · split_ifs
    · exact messages_setField (by decide) _ (messages_setField (by decide) _ h)
    · exact messages_setField (by decide) _ h

theorem messages_insertFormat {format : Option Json} {chat' : Fields}
    (h : chat.lookup "messages" = some messages) (hformat : insertFormat format chat = .ok chat') :
    chat'.lookup "messages" = some messages := by
  unfold insertFormat at hformat
  split at hformat
  · cases hformat
    exact h
  · rename_i value _
    cases hresponse : responseFormat value with
    | error message =>
      rw [hresponse] at hformat
      cases hformat
    | ok response =>
      rw [hresponse] at hformat
      cases hformat
      exact messages_setField (by decide) _ h

theorem messages_mapOutputConfig {outputConfig outputFormat : Option Json} {chat' : Fields}
    (h : chat.lookup "messages" = some messages)
    (hmap : mapOutputConfig outputConfig outputFormat chat = .ok chat') :
    chat'.lookup "messages" = some messages := by
  obtain ⟨formatted, hformat, hmap⟩ := bind_ok hmap
  have hkept := messages_insertFormat (messages_insertIfSome (by decide) _ h) hformat
  split at hmap
  · cases hmap
    exact hkept
  · cases hmap

theorem messages_convertTools (tools : Option Json) (h : chat.lookup "messages" = some messages) :
    (convertTools tools chat).lookup "messages" = some messages := by
  rw [convertTools]
  split_ifs
  · exact h
  · exact messages_setField (by decide) _ h

theorem messages_convertParallelToolCalls (toolChoice : Option Json)
    (h : chat.lookup "messages" = some messages) :
    (convertParallelToolCalls toolChoice chat).lookup "messages" = some messages := by
  rw [convertParallelToolCalls]
  split_ifs
  · exact messages_setField (by decide) _ h
  · exact h

theorem messages_convertToolChoice (toolChoice : Option Json) (hadTools : Bool)
    (h : chat.lookup "messages" = some messages) :
    (convertToolChoice toolChoice hadTools chat).lookup "messages" = some messages := by
  unfold convertToolChoice
  split_ifs
  · exact h
  · split
    · exact messages_setField (by decide) _ h
    · exact messages_setField (by decide) _ h
    · exact h

theorem messages_forwardUnmappedFields (body : Fields)
    (h : chat.lookup "messages" = some messages) :
    (forwardUnmappedFields body chat).lookup "messages" = some messages := by
  rw [forwardUnmappedFields]
  induction body generalizing chat with
  | nil => exact h
  | cons field rest ih =>
    refine ih ?_
    beta_reduce
    unfold insertAbsent
    split_ifs
    · exact h
    · rw [lookup_append, h, some_or]

end Fields

/-- An accepted request loses nothing: after the system message, which is there exactly when the
system text is not empty, the chat messages say what the request's messages say. -/
theorem accepted_request_keeps_units {digest : String → String} {body chat : Json}
    (h : transformRequest digest body = .ok chat) :
    ∃ content messages units, systemText body = some content ∧
      chat.get? "messages" = some (.arr (systemMessages content ++ messages)) ∧
      requestUnits body = some units ∧ readAll chatUnits messages = some units := by
  unfold transformRequest at h
  split at h
  · rename_i fields
    obtain ⟨_, hvalid, h⟩ := bind_ok h
    obtain ⟨_, -, h⟩ := bind_ok h
    obtain ⟨mapped, hmapped, h⟩ := bind_ok h
    cases h
    obtain ⟨_, -, hvalid⟩ := bind_ok hvalid
    obtain ⟨_, hsystem, hvalid⟩ := bind_ok hvalid
    obtain ⟨_, -, hvalid⟩ := bind_ok hvalid
    obtain ⟨_, -, hvalid⟩ := bind_ok hvalid
    obtain ⟨_, hmessages, -⟩ := bind_ok hvalid
    obtain ⟨content, hcontent, hhoist⟩ := hoistSystem_text hsystem
    obtain ⟨messages, units, hnew, hread, hunits⟩ :=
      convertMessages_units (systemMessages content) hmessages
    refine ⟨content, messages, units, hcontent, ?_, hunits, hread⟩
    have hbuilt : buildMessages (fields.lookup "system") (fields.lookup "messages") =
        .arr (systemMessages content ++ messages) := by
      rw [← hnew, ← hhoist]
      rfl
    rw [← hbuilt]
    -- No step after the messages are built writes their field.
    refine messages_forwardUnmappedFields _ (messages_convertToolChoice _ _
      (messages_convertParallelToolCalls _ (messages_convertTools _
        (messages_mapOutputConfig ?_ hmapped))))
    refine messages_insertIfSome (by decide) _ (messages_insertIfSome (by decide) _
      (messages_insertIfSome (by decide) _ (messages_insertIfSome (by decide) _
        (messages_convertStream _ _ (messages_insertIfSome (by decide) _ ?_)))))
    exact Json.lookup_setField _ _ _
  · cases h

/-- A text and an image, an answer that calls a tool between two texts, and the result. -/
def lookupDialogue : Json := .obj [
  ("system", .arr [textContentPart "Be brief.", textContentPart "Be kind."]),
  ("messages", .arr [
    .obj [("role", .str "user"), ("content", .arr [textContentPart "What is this?",
      .obj [("type", .str "image"),
        ("source", .obj [("type", .str "url"), ("url", .str "http://a/b")])]])],
    .obj [("role", .str "assistant"), ("content", .arr [textContentPart "Let me ",
      .obj [("type", .str "tool_use"), ("id", .str "c1"), ("name", .str "look")],
      textContentPart "look."])],
    .obj [("role", .str "user"), ("content", .arr [textContentPart "Here:",
      .obj [("type", .str "tool_result"), ("tool_use_id", .str "c1"),
        ("content", .arr [textContentPart "a", textContentPart "cat"])]])]])]

theorem lookupDialogue_carried :
    ∃ chat messages, transformRequest id lookupDialogue = .ok chat ∧
      chat.get? "messages" = some (.arr (systemMessages "Be brief.\nBe kind." ++ messages)) ∧
      readAll chatUnits messages = some [.text "user" "What is this?", .image "user" "http://a/b",
        .text "assistant" "Let me look.", .toolCall "c1" "look" "\x7b\x7d", .text "user" "Here:",
        .toolResult "c1" "a\ncat"] := by
  have haccepts : ∃ chat, transformRequest id lookupDialogue = .ok chat :=
    ⟨_, rfl⟩
  obtain ⟨chat, haccept⟩ := haccepts
  obtain ⟨content, messages, units, hcontent, hchat, hunits, hread⟩ :=
    accepted_request_keeps_units haccept
  have hsystem : systemText lookupDialogue = some "Be brief.\nBe kind." := by decide +kernel
  have hsaid : requestUnits lookupDialogue = some [.text "user" "What is this?",
      .image "user" "http://a/b", .text "assistant" "Let me look.",
      .toolCall "c1" "look" "\x7b\x7d", .text "user" "Here:", .toolResult "c1" "a\ncat"] := by
    decide +kernel
  rw [hsystem] at hcontent
  cases hcontent
  rw [hsaid] at hunits
  exact ⟨chat, messages, haccept, hchat, hread.trans hunits.symm⟩

end Requests

end MessageTranslation
