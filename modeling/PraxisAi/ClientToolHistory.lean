import PraxisAi.ClientToolLowering

/-! # Typed calls of earlier turns

A turn that goes on from earlier ones carries the client's typed calls and their outputs. The
backend is shown function calls in their place, and the tools that a search of the client has found
are read off its outputs. -/
namespace ClientToolHistory

open JsonValues KeyedMaps ResponseState ClientToolPlans ClientToolLowering

section Correlation

def nonEmpty (key : String) (item : Json) : Option String := (strField key item).filter (!·.isEmpty)

/-- The ids of the calls the client runs and the backend would otherwise see as its own. -/
def clientExecutedCallIds (messages : List Json) : List String :=
  messages.filterMap fun item =>
    if (itemType item = some "shell_call" ∨ itemType item = some "tool_search_call") ∧
        isClientExecutedToolCall item then nonEmpty "call_id" item
    else none

def outputCallWasLowered (ids : List String) (item : Json) : Bool :=
  (strField "call_id" item).any (ids.contains ·)

end Correlation

section Lowering

def namespacedHistoryCallName (item : Json) : Json :=
  match nonEmpty "namespace" item with
  | none => (item.get? "name").getD .null
  | some ns => .str (namespaceMemberName ns ((strField "name" item).getD ""))

def functionCallItemId (id : String) : String :=
  match (restAfter "ctc_" id).or (restAfter "sh_" id) with
  | some rest => "fc_" ++ rest
  | none => id

def applyFunctionCallItemId (out source : Json) : Json :=
  match nonEmpty "id" source with
  | some id => out.insert "id" (.str (functionCallItemId id))
  | none => out

def applyItemId (out source : Json) : Json :=
  match nonEmpty "id" source with
  | some id => out.insert "id" (.str id)
  | none => out

def applyMessageStatus (out source : Json) : Json :=
  match strField "status" source with
  | some status =>
    if status = "completed" ∨ status = "in_progress" ∨ status = "incomplete" then
      out.insert "status" (.str status)
    else out
  | none => out

def functionCall (item name : Json) (arguments : String) : Json :=
  .obj [("type", .str "function_call"), ("call_id", (item.get? "call_id").getD .null),
    ("name", name), ("arguments", .str arguments)]

def customCallToFunctionCall (item : Json) : Json :=
  let input := (strField "input" item).getD ""
  let out := functionCall item (namespacedHistoryCallName item)
    (Json.obj [("input", .str input)]).text
  carryCaller (applyMessageStatus (applyFunctionCallItemId out item) item) item

def shellCallToFunctionCall (item : Json) : Json :=
  let out := functionCall item (.str shellFunctionName) ((item.get? "action").getD (.obj [])).text
  carryCaller (applyMessageStatus (applyFunctionCallItemId out item) item) item

def toolSearchCallToFunctionCall (item : Json) : Json :=
  let out := functionCall item (.str toolSearchName) ((item.get? "arguments").getD (.obj [])).text
  applyMessageStatus (applyItemId out item) item

def callOutputToFunctionOutput (item : Json) (payload : Option Json) : Json :=
  let output :=
    match payload with
    | some (.str text) => text
    | some other => other.text
    | none => ""
  let out := Json.obj [("type", .str "function_call_output"),
    ("call_id", (item.get? "call_id").getD .null), ("output", .str output)]
  carryCaller (applyMessageStatus (applyItemId out item) item) item

def lowerCustomOutput (item : Json) : Json :=
  remove (item.insert "type" (.str "function_call_output")) "name"

def flattenNamespacedHistoryCall (item : Json) (ns : String) : Json :=
  remove (item.insert "name"
    (.str (namespaceMemberName ns ((strField "name" item).getD "")))) "namespace"

def lowerHistoryItem (ids : List String) (item : Json) : Option Json :=
  match itemType item with
  | some "custom_tool_call" => some (customCallToFunctionCall item)
  | some "custom_tool_call_output" => some (lowerCustomOutput item)
  | some "shell_call" =>
    if isClientExecutedToolCall item then some (shellCallToFunctionCall item) else none
  | some "shell_call_output" =>
    if outputCallWasLowered ids item then
      some (callOutputToFunctionOutput item (item.get? "output"))
    else none
  | some "tool_search_call" =>
    if isClientExecutedToolCall item then some (toolSearchCallToFunctionCall item) else none
  | some "tool_search_output" =>
    if outputCallWasLowered ids item then
      some (callOutputToFunctionOutput item (item.get? "tools"))
    else none
  | some "function_call" => (nonEmpty "namespace" item).map (flattenNamespacedHistoryCall item)
  | _ => none

def isUnsupportedHistoryItem (item : Json) : Bool :=
  itemType item == some "local_shell_call" || itemType item == some "local_shell_call_output"

def rejectUnsupportedHistoryItems (messages : List Json) : Except Rejection Unit :=
  if messages.any isUnsupportedHistoryItem then .error rejectLocalShellUnsupported else .ok ()

def needsLowering (messages : List Json) : Bool :=
  messages.any fun item => (lowerHistoryItem (clientExecutedCallIds messages) item).isSome

def lowerHistoryItems (messages : List Json) : Except Rejection (List Json × Bool) := do
  rejectUnsupportedHistoryItems messages
  let ids := clientExecutedCallIds messages
  pure (messages.map fun item => (lowerHistoryItem ids item).getD item, needsLowering messages)

end Lowering

section Discovery

variable (same : Json → Json → Bool)

def rejectConflictingDiscovery (toolType name : String) : Rejection :=
  rejectBadRequest ("tool_search returned conflicting definitions for the '" ++ toolType ++
    "' tool '" ++ name ++
    "'; the discovered tool declaration is ambiguous and cannot be lowered")

def toolSearchOutputIsHoistable (item : Json) : Except Rejection Bool :=
  match item.get? "status" with
  | none | some .null => .ok true
  | some (.str "completed") => .ok true
  | some (.str "in_progress") => .ok false
  | some (.str "incomplete") => .ok false
  | some (.str other) =>
    .error (rejectBadRequest ("tool_search_output has an unrecognized status '" ++ other ++
      "'; expected in_progress, completed, or incomplete"))
  | some _ =>
    .error (rejectBadRequest
      "tool_search_output status must be a string (in_progress, completed, or incomplete)")

def functionConflictIdentity (tool : Json) : Json :=
  let gates := (pickFields tool ["allowed_callers", "output_schema"]).filter (!isNull ·.2)
  .obj (("type", .str "function") ::
    pickFields tool ["name", "description", "parameters", "strict"] ++ gates)

def customFormatIsAccepted (tool : Json) : Bool :=
  (tool.get? "format").all fun format => strField "type" format == some "text"

def foldedDescription (tool : Json) : String :=
  ForwardedAddresses.trimText ((strField "description" tool).getD "")

def normalizeIdentityDescription (tool : Json) : Json :=
  let folded := foldedDescription tool
  match itemType tool with
  | some "custom" =>
    if folded.isEmpty then remove tool "description" else tool.insert "description" (.str folded)
  | some "namespace" => tool.insert "description" (.str folded)
  | some "shell" => remove tool "description"
  | _ => tool

def normalizeConflictIdentityFields (tool : Json) : Json :=
  let tool := remove tool "defer_loading"
  let tool :=
    if (tool.get? "allowed_callers").all isNull then remove tool "allowed_callers" else tool
  let tool :=
    if itemType tool = some "custom" ∧ customFormatIsAccepted tool then remove tool "format"
    else tool
  normalizeIdentityDescription tool

def memberConflictIdentity (member : Json) : Json :=
  if itemType member = some "function" then
    (functionConflictIdentity member).insert "description" (.str (foldedDescription member))
  else normalizeConflictIdentityFields member

def nonfunctionConflictIdentity (tool : Json) : Json :=
  let tool := normalizeConflictIdentityFields tool
  match tool.get? "tools" with
  | some (.arr members) => tool.insert "tools" (.arr (members.map memberConflictIdentity))
  | _ => tool

def discoveredConflictRepr (tool : Json) : Json :=
  if itemType tool = some "function" then functionConflictIdentity tool
  else nonfunctionConflictIdentity tool

structure Discoveries where
  seen : KeyedMap (String × String) Json
  tools : List Json

def mergeDiscoveredTool (found : Discoveries) (tool : Json) : Except Rejection Discoveries :=
  let key := ((itemType tool).getD "", (strField "name" tool).getD "")
  let repr := discoveredConflictRepr tool
  match found.seen.lookup key with
  | some existing =>
    if same existing repr then .ok found else .error (rejectConflictingDiscovery key.1 key.2)
  | none => .ok ⟨found.seen.insert key repr, found.tools ++ [tool]⟩

def mergeDiscoveredTools (found : Discoveries) (tools : List Json) :
    Except Rejection Discoveries :=
  tools.foldlM (mergeDiscoveredTool same) found

def collectFromItem (ids : List String) (found : Discoveries) (item : Json) :
    Except Rejection Discoveries :=
  if itemType item = some "tool_search_output" ∧ outputCallWasLowered ids item then do
    if ← toolSearchOutputIsHoistable item then
      match (item.get? "tools").bind Json.asArr with
      | some tools => mergeDiscoveredTools same found tools
      | none => pure found
    else pure found
  else .ok found

def collectDiscoveredTools (messages : List Json) : Except Rejection (List Json) :=
  (messages.foldlM (collectFromItem same (clientExecutedCallIds messages)) ⟨∅, []⟩).map (·.tools)

end Discovery

end ClientToolHistory
