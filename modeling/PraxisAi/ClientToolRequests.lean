import PraxisAi.ClientToolHistory

/-! # Requests with client tools

A request is lowered as a whole: its tools and those a search has found, the choice among them and
the history. What the client sent is kept for the answer; a request that cannot be lowered is
rejected, and its tools and choice are put back. -/
namespace ClientToolRequests

open JsonValues KeyedMaps ResponseState ClientToolPlans ClientToolLowering ClientToolHistory

section Choice

structure LoweringParts where
  reverse : KeyedMap String LoweredClientTool
  callable : List String
  withheld : List String

def intoParts (L : Lowering) : LoweringParts := ⟨L.reverse, L.occupied.keys, L.withheld⟩

def rejectUndeclaredChoice (name : String) : Rejection :=
  rejectBadRequest ("tool_choice selects client tool '" ++ name ++
    "', but no matching client tool is declared")

def rejectDeferredChoice (name : String) : Rejection :=
  rejectBadRequest ("tool_choice selects client tool '" ++ name ++
    "', but its loading is deferred until a tool_search discovers it")

variable (parts : LoweringParts)

def restoreKind (name : String) : Option ClientToolRestore :=
  (parts.reverse.lookup name).map (·.restore)

/-- A tool that cannot be chosen is still deferred, or was never declared. -/
def rejectChoice (wireName name : String) : Rejection :=
  if parts.withheld.contains wireName then rejectDeferredChoice name
  else rejectUndeclaredChoice name

def lowerNamespacedToolChoice (choice : Json) (ns : String) (expected : ClientToolRestore) :
    Except Rejection Json :=
  match strField "name" choice with
  | none => .error (rejectBadRequest "namespaced tool_choice requires a name")
  | some name =>
    let flat := namespaceMemberName ns name
    if restoreKind parts flat ≠ some expected then .error (rejectChoice parts flat name)
    else .ok (remove ((choice.insert "type" (.str "function")).insert "name" (.str flat))
      "namespace")

def lowerCustomToolChoice (choice : Json) : Except Rejection Json :=
  match nonEmpty "namespace" choice with
  | some ns => lowerNamespacedToolChoice parts choice ns .namespaceCustom
  | none =>
    match strField "name" choice with
    | none => .error (rejectBadRequest "custom tool_choice requires a name")
    | some name =>
      if restoreKind parts name ≠ some .custom then .error (rejectChoice parts name name)
      else .ok (choice.insert "type" (.str "function"))

def lowerFunctionToolChoice (choice : Json) : Except Rejection Json :=
  match nonEmpty "namespace" choice with
  | some ns => lowerNamespacedToolChoice parts choice ns .namespaceMember
  | none =>
    match strField "name" choice with
    | some name =>
      if parts.withheld.contains name ∧ !parts.callable.contains name then
        .error (rejectDeferredChoice name)
      else .ok choice
    | none => .ok choice

def lowerShellToolChoice (choice : Json) : Json :=
  if restoreKind parts shellFunctionName = some .shell then
    (choice.insert "type" (.str "function")).insert "name" (.str shellFunctionName)
  else choice

mutual

def lowerToolChoice : Json → Except Rejection Json
  | .obj fields =>
    match itemType (.obj fields) with
    | some "custom" => lowerCustomToolChoice parts (.obj fields)
    | some "function" => lowerFunctionToolChoice parts (.obj fields)
    | some "shell" => .ok (lowerShellToolChoice parts (.obj fields))
    | some "allowed_tools" => (lowerSelectorField fields).map .obj
    | _ => .ok (.obj fields)
  | choice => .ok choice

def lowerSelectorField : List (String × Json) → Except Rejection (List (String × Json))
  | [] => .ok []
  | (key, value) :: rest =>
    if key = "tools" then (lowerSelectors value).map fun value => (key, value) :: rest
    else (lowerSelectorField rest).map ((key, value) :: ·)

def lowerSelectors : Json → Except Rejection Json
  | .arr selectors => (lowerEachSelector selectors).map .arr
  | value => .ok value

def lowerEachSelector : List Json → Except Rejection (List Json)
  | [] => .ok []
  | selector :: rest => do
    let selector ← lowerToolChoice selector
    let rest ← lowerEachSelector rest
    pure (selector :: rest)

end

end Choice

section Requests

structure RequestState extends ResponsesState where
  requestBody : Json
  toolChoice : Json := .null
  requestBodyRebuild : Bool := false

def RequestState.withBody (s : RequestState) (requestBody : Json) : RequestState :=
  { s with requestBody }

theorem RequestState.withBody_requestBody (s : RequestState) (body : Json) :
    (s.withBody body).requestBody = body := rfl

def RequestState.withMessages (s : RequestState) (messages : List Json) : RequestState :=
  { s with messages }

structure Limits where
  maxClientTools : ℕ
  maxRewrittenBodyBytes : ℕ

abbrev Reply := Except Rejection Unit × RequestState

def isRichClientTool (tool : Json) : Bool :=
  match itemType tool with
  | some "custom" | some "namespace" | some "local_shell" => true
  | some "shell" => shellIsLocal tool
  | some "tool_search" => toolSearchIsClient tool
  | _ => false

def requestTools (s : RequestState) : Option (List Json) :=
  (s.requestBody.get? "tools").bind Json.asArr

def requestHasRichClientTool (s : RequestState) : Bool :=
  (requestTools s).any (·.any isRichClientTool)

def restoreTools (s : RequestState) (tools : List Json) : RequestState :=
  s.withBody (s.requestBody.insert "tools" (.arr tools))

/-- The tools leave a null behind; what is not an array is left alone. -/
def takeRequestTools (s : RequestState) : Option (List Json) × RequestState :=
  match requestTools s with
  | some tools => (some tools, s.withBody (s.requestBody.insert "tools" .null))
  | none => (none, s)

def restoreRequestToolsAndChoice (s : RequestState) (tools : List Json) (choice : Json) :
    RequestState :=
  let body := s.requestBody.insert "tools" (.arr tools)
  s.withBody (if isNull choice then remove body "tool_choice"
    else body.insert "tool_choice" choice)

def markRequestBodyForRebuild (s : RequestState) : RequestState :=
  { s with requestBodyRebuild := true }

def captureCanonicalEcho (s : RequestState) (tools : List Json) (choice : Json) : RequestState :=
  match s.clientToolEcho with
  | none => { s with clientToolEcho := some ⟨tools, choice⟩ }
  | some _ => s

def rejectUnmeasured (error : String) : Rejection :=
  ⟨500, "server_error", "failed to measure rewritten request body: " ++ error⟩

def rejectRewrittenBodyTooLarge (len limit : ℕ) : Rejection :=
  ⟨413, "invalid_request_error", "rewritten request body (" ++ len.repr ++
    " bytes) exceeds maximum (" ++ limit.repr ++ " bytes)"⟩

def rejectStreamingMissingOwner : Rejection :=
  ⟨500, "server_error", "openai_stream_events must precede openai_client_tool_compat to " ++
    "restore lowered client tools on the streaming Responses path"⟩

variable (same : Json → Json → Bool) (measure : RequestState → Except String ℕ)
  (limits : Limits)

def withinRewriteCap (s : RequestState) : Except Rejection Unit :=
  match measure s with
  | .error error => .error (rejectUnmeasured error)
  | .ok len =>
    if len > limits.maxRewrittenBodyBytes then
      .error (rejectRewrittenBodyTooLarge len limits.maxRewrittenBodyBytes)
    else .ok ()

/-- A body over the limit gets its tools and choice back; the history stays as it was lowered. -/
def enforceRewriteCap (s : RequestState) (tools : List Json) (choice : Json) : Reply :=
  match withinRewriteCap measure limits s with
  | .error rejection => (.error rejection, restoreRequestToolsAndChoice s tools choice)
  | .ok () => (.ok (), s)

def enforceHistoryRewriteCap (s : RequestState) : Except Rejection Unit :=
  withinRewriteCap measure limits s

def lowerHistoryOnly (s : RequestState) : Reply :=
  match lowerHistoryItems s.messages with
  | .error rejection => (.error rejection, s)
  | .ok (messages, changed) =>
    if changed then
      match enforceHistoryRewriteCap measure limits (s.withMessages messages) with
      | .error rejection => (.error rejection, s.withMessages messages)
      | .ok () => (.ok (), markRequestBodyForRebuild (s.withMessages messages))
    else (.ok (), s.withMessages messages)

def requestToolChoice (s : RequestState) : Json := (s.requestBody.get? "tool_choice").getD .null

def rewriteBody (s : RequestState) (tools : List Json) (choice loweredChoice : Json) :
    RequestState :=
  let body := s.requestBody.insert "tools" (.arr tools)
  s.withBody (if isNull choice then body else body.insert "tool_choice" loweredChoice)

def commitLowering (s : RequestState) (L : Lowering) (originalTools : List Json) : Reply :=
  let choice := requestToolChoice s
  match lowerToolChoice (intoParts L) choice with
  | .error rejection => (.error rejection, restoreTools s originalTools)
  | .ok loweredChoice =>
    let s := rewriteBody s L.lowered choice loweredChoice
    match lowerHistoryItems s.messages with
    | .error rejection => (.error rejection, restoreRequestToolsAndChoice s originalTools choice)
    | .ok (messages, _) =>
      match enforceRewriteCap measure limits (s.withMessages messages) originalTools choice with
      | (.error rejection, s) => (.error rejection, s)
      | (.ok (), s) =>
        let s := { s with clientToolLowering := L.reverse }
        (.ok (), markRequestBodyForRebuild (captureCanonicalEcho s originalTools choice))

/-- Nothing was lowered or found: what is withheld is taken out all the same. -/
def finishWithoutLoweredOrDiscovered (s : RequestState) (L : Lowering)
    (originalTools : List Json) : Reply :=
  if L.withheldAny then commitLowering measure limits s L originalTools
  else lowerHistoryOnly measure limits (restoreTools s originalTools)

/-- A request that was lowered before starts from what the client sent, else from its body. -/
def takeOriginalTools (s : RequestState) : List Json × RequestState :=
  match s.clientToolEcho with
  | some echo => (echo.tools, s)
  | none =>
    let (tools, s) := takeRequestTools s
    (tools.getD [], s)

def lowerDeclaredAndDiscovered (s : RequestState) (discovered : List Json) : Reply :=
  let (originalTools, s) := takeOriginalTools s
  match lowerTools limits.maxClientTools originalTools Lowering.new with
  | .error rejection => (.error rejection, restoreTools s originalTools)
  | .ok L =>
    if !L.loweredAny ∧ discovered.isEmpty then
      finishWithoutLoweredOrDiscovered measure limits s L originalTools
    else
      match lowerDiscoveredTools limits.maxClientTools discovered L with
      | .error rejection => (.error rejection, restoreTools s originalTools)
      | .ok L => commitLowering measure limits s L originalTools

def hasMalformedTools (s : RequestState) : Bool :=
  (s.requestBody.get? "tools").any fun tools => !isNull tools && tools.asArr.isNone

def lowerRequest (streaming streamRestorationArmed : Bool) (s : RequestState) : Reply :=
  if hasMalformedTools s then (.error (rejectBadRequest "tools must be a JSON array"), s)
  else
    let hasRich := requestHasRichClientTool s
    match collectDiscoveredTools same s.messages with
    | .error rejection => (.error rejection, s)
    | .ok discovered =>
      if streaming ∧ (hasRich ∨ !discovered.isEmpty) ∧ !streamRestorationArmed then
        (.error rejectStreamingMissingOwner, s)
      else if !hasRich ∧ discovered.isEmpty then lowerHistoryOnly measure limits s
      else lowerDeclaredAndDiscovered measure limits s discovered

end Requests

end ClientToolRequests
