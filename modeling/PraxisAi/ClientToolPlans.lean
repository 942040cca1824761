import PraxisAi.ForwardedAddresses
import PraxisAi.ResponseState

/-! # Restoring the calls of client tools

Tools only the client can run were sent to the provider as private functions. A call of one that it
answers with is told to the client under the tool's own type and name, with an id of that type; a
call that cannot be restored is refused. -/
namespace ClientToolPlans

open JsonValues KeyedMaps ResponseState SseFrames
open ForwardedAddresses (isBlank)

structure Readers where
  fromStr : String → Option Json
  inputEnvelope : String → Option String

section Identifiers

def fnvOffsetBasis : UInt64 := 0xCBF29CE484222325

def fnvPrime : UInt64 := 0x100000001B3

def hex16 (n : UInt64) : String :=
  String.ofList ((List.range 16).reverse.map fun i => Nat.digitChar (n.toNat / 16 ^ i % 16))

def restAfter (lead s : String) : Option String :=
  if lead.isPrefixOf s then
    let rest := String.ofList (s.toList.drop lead.length)
    if rest.isEmpty then none else some rest
  else none

def stableNameHash (value : String) : UInt64 :=
  (ascii value).foldl (fun hash (byte : UInt8) => (hash ^^^ byte.toUInt64) * fnvPrime)
    fnvOffsetBasis

def publicItemId (lead hashed itemId : String) : String :=
  match restAfter "fc_" itemId with
  | some rest => lead ++ rest
  | none => lead ++ hex16 (stableNameHash hashed)

def customPublicItemId (itemId : String) : String :=
  if "ctc_".isPrefixOf itemId then itemId else publicItemId "ctc_" itemId itemId

def shellPublicItemId (itemId : String) : String :=
  if "sh_".isPrefixOf itemId then itemId else publicItemId "sh_" itemId itemId

def toolSearchPublicItemId (itemId : String) : String :=
  if (restAfter "tsc_" itemId).isSome then itemId
  else publicItemId "tsc_" ("tool_search_item:" ++ itemId) itemId

end Identifiers

section Restore

variable (R : Readers)

def carryCaller (out source : Json) : Json :=
  match (source.get? "caller").filter (!isNull ·) with
  | some caller => out.insert "caller" caller
  | none => out

def usableCallId (item : Json) : Option String := (strField "call_id" item).filter (!isBlank ·)

def restoreCustomCall (item : Json) : Option Json :=
  (usableCallId item).bind fun callId =>
    (R.inputEnvelope ((strField "arguments" item).getD "")).map fun input =>
      carryCaller
        (.obj [("type", .str "custom_tool_call"),
          ("id", .str (customPublicItemId ((itemId item).getD ""))), ("call_id", .str callId),
          ("name", (item.get? "name").getD .null), ("input", .str input)])
        item

def withNamespace (item : Json) : Option String → Json
  | some ns => item.insert "namespace" (.str ns)
  | none => item

def restoreNamespaceCall (item : Json) (originalName : String) (ns : Option String) : Json :=
  withNamespace (item.insert "name" (.str originalName)) ns

def restoreNamespaceCustomCall (item : Json) (memberName : String) (ns : Option String) :
    Option Json :=
  (restoreCustomCall R item).map fun out =>
    withNamespace (out.insert "name" (.str memberName)) ns

def isBadU64 (object : Json) (field : String) : Bool :=
  (object.get? field).any fun value => !isNull value && (FiniteTranslation.asU64 value).isNone

def orNull (object : Json) (field : String) : Json :=
  if (object.get? field).isSome then object else object.insert field .null

def parseShellAction (arguments : String) : Option Json :=
  (R.fromStr arguments).bind fun action =>
    match action.asObj, (action.get? "commands").bind Json.asArr with
    | some _, some commands =>
      if !commands.all (fun c => c.asStr.isSome) || isBadU64 action "timeout_ms" ||
          isBadU64 action "max_output_length" then none
      else some (orNull (orNull action "timeout_ms") "max_output_length")
    | _, _ => none

def restoreCallStatus (item : Json) : Option String :=
  match item.get? "status" with
  | none | some .null => some "completed"
  | some (.str "in_progress") => some "in_progress"
  | some (.str "completed") => some "completed"
  | some (.str "incomplete") => some "incomplete"
  | some _ => none

def restoreShellCall (item : Json) : Option Json :=
  (parseShellAction R ((strField "arguments" item).getD "")).bind fun action =>
    (usableCallId item).bind fun callId =>
      (restoreCallStatus item).map fun status =>
        carryCaller
          (.obj [("type", .str "shell_call"),
            ("id", .str (shellPublicItemId ((itemId item).getD ""))), ("call_id", .str callId),
            ("action", action), ("environment", .obj [("type", .str "local")]),
            ("status", .str status)])
          item

def restoreToolSearchCall (item : Json) : Option Json :=
  let id := (itemId item).getD ""
  let callId := (strField "call_id" item).getD ""
  if isBlank id || isBlank callId || (item.get? "namespace").any (!isNull ·) then none
  else
    (restoreCallStatus item).bind fun status =>
      (R.fromStr ((strField "arguments" item).getD "")).map fun arguments =>
        .obj [("type", .str "tool_search_call"), ("id", .str (toolSearchPublicItemId id)),
          ("call_id", .str callId), ("execution", .str "client"), ("arguments", arguments),
          ("status", .str status)]

variable (reverse : KeyedMap String LoweredClientTool)

/-- The item under its own type, or the type that could not be restored. -/
def restoreOutputItem (item : Json) : Except String Json :=
  if itemType item = some "function_call" then
    match (strField "name" item).bind fun name => reverse.lookup name with
    | none => .ok item
    | some lowered =>
      match lowered.restore with
      | .custom => (restoreCustomCall R item).elim (.error "custom_tool_call") .ok
      | .namespaceMember =>
        .ok (restoreNamespaceCall item lowered.originalName lowered.namespaceName)
      | .namespaceCustom =>
        (restoreNamespaceCustomCall R item lowered.originalName lowered.namespaceName).elim
          (.error "custom_tool_call") .ok
      | .shell => (restoreShellCall R item).elim (.error "shell_call") .ok
      | .toolSearch => (restoreToolSearchCall R item).elim (.error "tool_search_call") .ok
  else .ok item

end Restore

end ClientToolPlans
