import PraxisAi.ClientToolPlans

/-! # Client tools as private functions

A backend that knows functions only is shown a function for every tool of the client: under the
tool's own name, under a fixed name for the local shell and the tool search, and under a name made
of namespace and member. Every name is claimed once; what cannot be shown is rejected, and what is
deferred is withheld until a search has found it. -/
namespace ClientToolLowering

open JsonValues KeyedMaps ResponseState ClientToolPlans
open ForwardedAddresses (trimText)

section Rejections

structure Rejection where
  status : ℕ
  kind : String
  message : String
  deriving DecidableEq

def rejectBadRequest (message : String) : Rejection := ⟨400, "invalid_request_error", message⟩

def rejectCollision (name : String) : Rejection :=
  rejectBadRequest ("client tool '" ++ name ++
    "' collides with another tool after lowering to a private function declaration")

def rejectInvalidName (name : String) : Rejection :=
  rejectBadRequest ("client tool '" ++ name ++
    "' cannot be lowered to a valid function name (must match ^[a-zA-Z0-9_-]\x7b1,64\x7d$)")

def rejectTooManyTools (max : ℕ) : Rejection :=
  rejectBadRequest ("request lowers more than the configured maximum of " ++ max.repr ++
    " client tools")

def rejectLocalShellUnsupported : Rejection :=
  rejectBadRequest ("local_shell tools are not yet supported on a function-only Responses " ++
    "backend; declare a local shell tool (type \"shell\" with environment.type \"local\") instead")

def rejectUnsupportedNamespaceMember (ns : String) (memberType : Option String) : Rejection :=
  rejectBadRequest ("namespace '" ++ ns ++ "' contains an unsupported '" ++
    memberType.getD "<missing>" ++ "' member; only function and custom members can be lowered " ++
    "for a function-only Responses backend")

end Rejections

section Names

def shellFunctionName : String := "shell"

def toolSearchName : String := "tool_search"

def namespaceMemberPrefix : String := "agentic_ns__"

def hashedNamespaceMemberSuffixLen : ℕ := 19

def reservedHostedToolNames : List String := ["file_search", "web_search"]

def isValidFunctionName (name : String) : Bool :=
  !name.isEmpty && name.utf8ByteSize ≤ maxFunctionNameLen &&
    name.toList.all fun c => c.isAlphanum || c == '_' || c == '-'

def hasDelimiter : List Char → Bool
  | '_' :: '_' :: _ => true
  | _ :: rest => hasDelimiter rest
  | [] => false

def isPlainComponent (component : String) : Bool :=
  !hasDelimiter component.toList && component.toList.head? != some '_' &&
    component.toList.getLast? != some '_'

def verbatimFlatteningIsInjective (ns member : String) : Bool :=
  isPlainComponent ns && isPlainComponent member

def namespacePairHash (ns member : String) : UInt64 :=
  stableNameHash (ns.utf8ByteSize.repr ++ ":" ++ ns ++ ":" ++ member)

/-- The name of a member: its parts if they can be told apart and fit, else with a hash. -/
def namespaceMemberName (ns member : String) : String :=
  let fullName := namespaceMemberPrefix ++ ns ++ "__" ++ member
  if fullName.length ≤ maxFunctionNameLen ∧ verbatimFlatteningIsInjective ns member then fullName
  else
    String.ofList (fullName.toList.take (maxFunctionNameLen - hashedNamespaceMemberSuffixLen)) ++
      "___" ++ hex16 (namespacePairHash ns member)

def topLevelName (tool : Json) : Option String :=
  if itemType tool = some "function" ∨ itemType tool = some "custom" then strField "name" tool
  else none

def rejectReservedTopLevelName (tool : Json) : Except Rejection Unit :=
  match topLevelName tool with
  | some name =>
    if namespaceMemberPrefix.isPrefixOf name then
      .error (rejectBadRequest ("client tool '" ++ name ++ "' uses the reserved '" ++
        namespaceMemberPrefix ++ "' namespace prefix"))
    else .ok ()
  | none => .ok ()

def rejectReservedHostedToolName (tool : Json) : Except Rejection Unit :=
  match topLevelName tool with
  | some name =>
    if reservedHostedToolNames.contains name then
      .error (rejectBadRequest ("client tool '" ++ name ++
        "' collides with the reserved hosted tool name '" ++ name ++ "'"))
    else .ok ()
  | none => .ok ()

end Names

section Declarations

def nonEmptyName (tool : Json) : Option String := (strField "name" tool).filter (!·.isEmpty)

def shellIsLocal (tool : Json) : Bool :=
  ((tool.get? "environment").bind (strField "type")) == some "local"

def toolSearchIsClient (tool : Json) : Bool :=
  (strField "execution" tool).all (· == "client")

def isDeferredDeclaration (tool : Json) : Bool :=
  ((tool.get? "defer_loading").bind FiniteTranslation.asBool) == some true

def rejectIfRestrictedCallers (tool : Json) (descriptor : String) : Except Rejection Unit :=
  if (tool.get? "allowed_callers").any (!isNull ·) then
    .error (rejectBadRequest (descriptor ++ " declares allowed_callers, which cannot be " ++
      "enforced once lowered to a private function; remove the restriction or omit the tool"))
  else .ok ()

def rejectUnsupportedCustomDeclaration (tool : Json) (descriptor : String) :
    Except Rejection Unit :=
  if (tool.get? "format").any fun format => strField "type" format != some "text" then
    .error (rejectBadRequest (descriptor ++ " uses an unsupported custom format; constrained " ++
      "decoding cannot be preserved for a function-only backend"))
  else rejectIfRestrictedCallers tool descriptor

def pickFields (tool : Json) (fields : List String) : List (String × Json) :=
  fields.filterMap fun field => (tool.get? field).map fun value => (field, value)

def sanitizeBackendFunction (tool : Json) (descriptor : String) : Except Rejection Json := do
  rejectIfRestrictedCallers tool descriptor
  let sanitized := ("type", Json.str "function") ::
    pickFields tool ["name", "description", "parameters", "strict"]
  match tool.get? "output_schema" with
  | none => pure (.obj sanitized)
  | some (.obj schema) => pure (.obj (sanitized ++ [("output_schema", .obj schema)]))
  | some .null => pure (.obj sanitized)
  | some _ =>
    .error (rejectBadRequest
      (descriptor ++ " declares an output_schema that is not a JSON object or null"))

structure NamespaceContext where
  name : String
  description : String

def namespaceHeader (tool : Json) : Except Rejection (NamespaceContext × List Json) :=
  match nonEmptyName tool with
  | none => .error (rejectBadRequest "namespace tool requires a non-empty name")
  | some name =>
    match ((strField "description" tool).map trimText).filter (!·.isEmpty) with
    | none =>
      .error (rejectBadRequest ("namespace '" ++ name ++ "' requires a non-empty description"))
    | some description =>
      match ((tool.get? "tools").bind Json.asArr).filter (!·.isEmpty) with
      | none =>
        .error (rejectBadRequest ("namespace '" ++ name ++ "' requires a non-empty tools array"))
      | some members => .ok (⟨name, description⟩, members)

def prependNamespaceContext (ns : NamespaceContext) (body : String) : String :=
  let lead := "Belongs to the \x60" ++ ns.name ++ "\x60 tool namespace: " ++ ns.description
  let body := trimText body
  if body.isEmpty then lead else lead ++ "\n\n" ++ body

def customExtraFields (tool : Json) : List (String × Json) :=
  (tool.asObj.getD []).filter fun field =>
    field.1 ∉ ["type", "name", "description", "format", "defer_loading", "allowed_callers"]

def customModelVisibleDescription (tool : Json) : String :=
  let description := ((strField "description" tool).map trimText).filter (!·.isEmpty)
  let extra := customExtraFields tool
  "\n\n".intercalate (description.toList ++
    ["Provide the raw tool input in the \x60input\x60 string field."] ++
    if extra.isEmpty then []
    else ["Additional custom tool declaration fields that must be respected:\n" ++
      (Json.obj extra).text])

def customLoweredFunction (name description : String) : Json :=
  .obj [("type", .str "function"), ("name", .str name), ("description", .str description),
    ("parameters", .obj [("type", .str "object"),
      ("properties", .obj [("input", .obj [("type", .str "string"),
        ("description", .str ("Raw custom tool input. Follow the tool description and " ++
          "declared format exactly."))])]),
      ("required", .arr [.str "input"]), ("additionalProperties", .bool false)]),
    ("strict", .bool true)]

def shellBaseDescription : String :=
  "Run one or more commands in the caller-provided local shell environment. The " ++
    "caller executes the commands and returns their outputs."

def maxLocalSkills : ℕ := 200

def renderLocalSkill (skill : Json) : Except Rejection String :=
  match strField "name" skill, strField "description" skill, strField "path" skill with
  | none, _, _ => .error (rejectBadRequest "local skill requires a string name")
  | some _, none, _ => .error (rejectBadRequest "local skill requires a string description")
  | some _, some _, none => .error (rejectBadRequest "local skill requires a string path")
  | some name, some description, some path =>
    .ok ("- " ++ name ++ (if description.isEmpty then "" else ": " ++ description) ++
      if path.isEmpty then "" else " (path: " ++ path ++ ")")

def shellModelVisibleDescription (tool : Json) : Except Rejection String :=
  match (tool.get? "environment").bind (·.get? "skills") with
  | none => .ok shellBaseDescription
  | some skills =>
    match skills.asArr with
    | none =>
      .error (rejectBadRequest "shell tool environment.skills must be an array of local skills")
    | some skills =>
      if skills.length > maxLocalSkills then
        .error (rejectBadRequest ("shell tool declares more than the maximum of " ++
          maxLocalSkills.repr ++ " local skills"))
      else if skills.isEmpty then .ok shellBaseDescription
      else (skills.mapM renderLocalSkill).map fun rendered =>
        shellBaseDescription ++
          "\n\nThe caller's local shell environment provides these skills:\n" ++
          "\n".intercalate rendered

def optionalNumber (description : String) : Json :=
  .obj [("type", .str "integer"), ("minimum", .ofNat 0), ("description", .str description)]

def shellLoweredFunction (description : String) : Json :=
  .obj [("type", .str "function"), ("name", .str shellFunctionName),
    ("description", .str description),
    ("parameters", .obj [("type", .str "object"),
      ("properties", .obj [
        ("commands", .obj [("type", .str "array"), ("items", .obj [("type", .str "string")]),
          ("minItems", .ofNat 1), ("description", .str "Commands to execute in order.")]),
        ("timeout_ms", optionalNumber "Optional timeout in milliseconds."),
        ("max_output_length", optionalNumber "Optional maximum captured output length.")]),
      ("required", .arr [.str "commands"]), ("additionalProperties", .bool false)]),
    ("strict", .bool false)]

def defaultToolSearchParameters : Json :=
  .obj [("type", .str "object"),
    ("properties", .obj [("query", .obj [("type", .str "string"),
      ("description", .str "A concise description of the needed capabilities.")])]),
    ("required", .arr [.str "query"]), ("additionalProperties", .bool false)]

def toolSearchDescription (tool : Json) : String :=
  ((strField "description" tool).filter (!·.isEmpty)).getD "Search the client tool catalog"

def toolSearchParameters (tool : Json) : Json :=
  ((tool.get? "parameters").filter (·.asObj.isSome)).getD defaultToolSearchParameters

def toolSearchLoweredFunction (description : String) (parameters : Json) : Json :=
  .obj [("type", .str "function"), ("name", .str toolSearchName),
    ("description", .str description), ("parameters", parameters), ("strict", .bool false)]

end Declarations

section Accumulator

inductive NameOrigin where
  | lowered
  | passthrough
  deriving DecidableEq

/-- Where a tool comes from: deferred ones are withheld from a request and loaded by a search. -/
inductive LoweringSource where
  | declaration
  | discovery
  deriving DecidableEq

structure Lowering where
  occupied : KeyedMap String NameOrigin
  reverse : KeyedMap String LoweredClientTool
  loweredAny : Bool
  withheldAny : Bool
  withheldCount : ℕ
  withheld : List String
  lowered : List Json

def Lowering.new : Lowering := ⟨∅, ∅, false, false, 0, [], []⟩

abbrev Lowered := Except Rejection Lowering

variable (maxClientTools : ℕ)

def enforceToolCap (L : Lowering) : Lowered :=
  if L.reverse.keys.length + L.withheldCount > maxClientTools then
    .error (rejectTooManyTools maxClientTools)
  else .ok L

def withhold (wireName : Option String) (L : Lowering) : Lowered :=
  enforceToolCap maxClientTools
    { L with
      withheldAny := true
      withheldCount := L.withheldCount + 1
      withheld := match wireName.filter (!·.isEmpty) with
        | some name => L.withheld.insert name
        | none => L.withheld }

def Lowering.occupy (L : Lowering) (name : String) (origin : NameOrigin) : Lowering :=
  { L with occupied := L.occupied.insert name origin }

def Lowering.push (L : Lowering) (tool : Json) : Lowering :=
  { L with lowered := L.lowered ++ [tool] }

def recordPassthrough (name : String) (L : Lowering) : Lowered :=
  match L.occupied.lookup name with
  | some .lowered => .error (rejectCollision name)
  | some .passthrough => .ok L
  | none => .ok (L.occupy name .passthrough)

def claim (origin : NameOrigin) (name : String) (L : Lowering) : Lowered :=
  if !isValidFunctionName name then .error (rejectInvalidName name)
  else if (L.occupied.lookup name).isSome then .error (rejectCollision name)
  else .ok (L.occupy name origin)

def claimLowered (name : String) (L : Lowering) : Lowered := claim .lowered name L

def claimDiscoveredPassthrough (name : String) (L : Lowering) : Lowered := claim .passthrough name L

def register (name : String) (restore : LoweredClientTool) (L : Lowering) : Lowered :=
  enforceToolCap maxClientTools
    { L with reverse := L.reverse.insert name restore, loweredAny := true }

/-- A search that finds a withheld tool gives back its place in the count. -/
def reclaimWithheld (source : LoweringSource) (name : String) (L : Lowering) : Lowering :=
  if source = .discovery ∧ name ∈ L.withheld then
    { L with withheld := L.withheld.erase name, withheldCount := L.withheldCount - 1 }
  else L

end Accumulator

section Tools

variable (maxClientTools : ℕ)

def lowerCustom (source : LoweringSource) (tool : Json) (L : Lowering) : Lowered :=
  match nonEmptyName tool with
  | none => .error (rejectBadRequest "custom tool requires a non-empty name")
  | some name => do
    rejectUnsupportedCustomDeclaration tool ("custom tool '" ++ name ++ "'")
    let L ← claimLowered name L
    let L := reclaimWithheld source name L
    let L := L.push (customLoweredFunction name (customModelVisibleDescription tool))
    register maxClientTools name ⟨name, none, .custom⟩ L

def lowerShell (tool : Json) (L : Lowering) : Lowered := do
  rejectIfRestrictedCallers tool "shell tool"
  let description ← shellModelVisibleDescription tool
  let L ← claimLowered shellFunctionName L
  register maxClientTools shellFunctionName ⟨shellFunctionName, none, .shell⟩
    (L.push (shellLoweredFunction description))

def lowerToolSearch (tool : Json) (L : Lowering) : Lowered :=
  if (tool.get? "parameters").any fun parameters =>
      !isNull parameters && parameters.asObj.isNone then
    .error (rejectBadRequest
      "tool_search parameters must be a JSON object or null for private function lowering")
  else do
    let L ← claimLowered toolSearchName L
    register maxClientTools toolSearchName ⟨toolSearchName, none, .toolSearch⟩
      (L.push (toolSearchLoweredFunction (toolSearchDescription tool) (toolSearchParameters tool)))

def memberDescriptor (ns member : String) : String :=
  "namespace '" ++ ns ++ "' member '" ++ member ++ "'"

/-- A member of a namespace under its flat name, with the namespace in its description. -/
def namespaceMemberFunction (ns : NamespaceContext) (member function : Json) (flat : String) :
    Json :=
  let description := prependNamespaceContext ns ((strField "description" member).getD "")
  ((function.insert "type" (.str "function")).insert "name" (.str flat)).insert "description"
    (.str description)

def lowerNamespaceMember (ns : NamespaceContext) (source : LoweringSource) (member : Json)
    (L : Lowering) : Lowered :=
  match nonEmptyName member with
  | none => .error (rejectBadRequest "namespace member requires a non-empty name")
  | some memberName => do
    let function ← sanitizeBackendFunction member (memberDescriptor ns.name memberName)
    let flat := namespaceMemberName ns.name memberName
    let L ← claimLowered flat L
    let L := reclaimWithheld source flat L
    register maxClientTools flat ⟨memberName, some ns.name, .namespaceMember⟩
      (L.push (namespaceMemberFunction ns member function flat))

def lowerNamespaceCustomMember (ns : NamespaceContext) (source : LoweringSource) (member : Json)
    (L : Lowering) : Lowered :=
  match nonEmptyName member with
  | none => .error (rejectBadRequest "namespace member requires a non-empty name")
  | some memberName => do
    rejectUnsupportedCustomDeclaration member (memberDescriptor ns.name memberName)
    let flat := namespaceMemberName ns.name memberName
    let L ← claimLowered flat L
    let L := reclaimWithheld source flat L
    register maxClientTools flat ⟨memberName, some ns.name, .namespaceCustom⟩
      (L.push (customLoweredFunction flat
        (prependNamespaceContext ns (customModelVisibleDescription member))))

def lowerMember (ns : NamespaceContext) (source : LoweringSource) (member : Json) (L : Lowering) :
    Lowered :=
  if source = .declaration ∧ isDeferredDeclaration member then
    withhold maxClientTools ((nonEmptyName member).map (namespaceMemberName ns.name)) L
  else match itemType member with
    | some "function" => lowerNamespaceMember maxClientTools ns source member L
    | some "custom" => lowerNamespaceCustomMember maxClientTools ns source member L
    | other => .error (rejectUnsupportedNamespaceMember ns.name other)

def lowerNamespace (source : LoweringSource) (tool : Json) (L : Lowering) : Lowered := do
  let (ns, members) ← namespaceHeader tool
  members.foldlM (fun L member => lowerMember maxClientTools ns source member L) L

def recordFunction (tool : Json) (L : Lowering) : Lowered :=
  match strField "name" tool with
  | some name => recordPassthrough name L
  | none => .ok L

def lowerTool (L : Lowering) (tool : Json) : Lowered := do
  rejectReservedTopLevelName tool
  rejectReservedHostedToolName tool
  if (itemType tool = some "function" ∨ itemType tool = some "custom") ∧
      isDeferredDeclaration tool then
    withhold maxClientTools (strField "name" tool) L
  else match itemType tool with
    | some "custom" => lowerCustom maxClientTools .declaration tool L
    | some "namespace" => lowerNamespace maxClientTools .declaration tool L
    | some "local_shell" => .error rejectLocalShellUnsupported
    | some "function" => do
      let L ← recordFunction tool L
      pure (L.push tool)
    | some "shell" =>
      if shellIsLocal tool then lowerShell maxClientTools tool L else .ok (L.push tool)
    | some "tool_search" =>
      if toolSearchIsClient tool then lowerToolSearch maxClientTools tool L
      else .ok (L.push tool)
    | _ => .ok (L.push tool)

def lowerTools (tools : List Json) (L : Lowering) : Lowered :=
  tools.foldlM (lowerTool maxClientTools) L

def lowerDiscoveredFunction (tool : Json) (L : Lowering) : Lowered :=
  match nonEmptyName tool with
  | none =>
    .error (rejectBadRequest "tool_search returned a function tool without a non-empty name")
  | some name => do
    let sanitized ← sanitizeBackendFunction tool
      ("tool_search discovered function '" ++ name ++ "'")
    let L ← claimDiscoveredPassthrough name L
    pure (L.push sanitized)

def rejectUnsupportedDiscovery (toolType : Option String) : Rejection :=
  rejectBadRequest ("tool_search returned an unsupported '" ++ toolType.getD "<missing>" ++
    "' tool that cannot be made callable on a function-only backend")

def lowerDiscoveredTool (L : Lowering) (tool : Json) : Lowered := do
  rejectReservedTopLevelName tool
  rejectReservedHostedToolName tool
  match itemType tool with
  | some "custom" => lowerCustom maxClientTools .discovery tool L
  | some "namespace" => lowerNamespace maxClientTools .discovery tool L
  | some "local_shell" => .error rejectLocalShellUnsupported
  | some "function" => lowerDiscoveredFunction tool L
  | some "shell" =>
    if shellIsLocal tool then lowerShell maxClientTools tool L
    else .error (rejectUnsupportedDiscovery (some "shell"))
  | some "tool_search" =>
    if toolSearchIsClient tool then lowerToolSearch maxClientTools tool L
    else .error (rejectUnsupportedDiscovery (some "tool_search"))
  | other => .error (rejectUnsupportedDiscovery other)

def lowerDiscoveredTools (discovered : List Json) (L : Lowering) : Lowered :=
  if discovered.length > maxClientTools then .error (rejectTooManyTools maxClientTools)
  else discovered.foldlM (lowerDiscoveredTool maxClientTools) L

end Tools

end ClientToolLowering
