import PraxisAi.LoweringLedger

/-! # Calls of lowered tools, there and back

A call that the backend makes of a private function is restored as a call of the tool behind it, or
refused if it lacks what such a call needs. A typed call of an earlier turn that is shown to the
backend as a function call is restored as what it was; a shell action gets explicit nulls for the
limits it leaves out. -/
namespace LoweringRoundTrip

open Option
open JsonValues KeyedMaps ResponseState ClientToolPlans ClientToolLowering ClientToolHistory
  ClientToolRequests NameRegistries LoweringLedger
open ForwardedAddresses (isBlank)

section Views

def publicType : ClientToolRestore → String
  | .custom | .namespaceCustom => "custom_tool_call"
  | .namespaceMember => "function_call"
  | .shell => "shell_call"
  | .toolSearch => "tool_search_call"

/-- The calls of the shell and of the search have no name. -/
def publicName (tool : LoweredClientTool) : Option String :=
  match tool.restore with
  | .shell | .toolSearch => none
  | _ => some tool.originalName

structure PublicAs (tool : LoweredClientTool) (item : Json) : Prop where
  type : itemType item = some (publicType tool.restore)
  name : strField "name" item = publicName tool
  space : strField "namespace" item = tool.namespaceName

def WireName (tool : LoweredClientTool) (w : String) : Prop :=
  match tool.restore with
  | .custom => tool.namespaceName = none ∧ w = tool.originalName
  | .shell => tool.namespaceName = none ∧ w = shellFunctionName
  | .toolSearch => tool.namespaceName = none ∧ w = toolSearchName
  | .namespaceMember | .namespaceCustom =>
    ∃ ns, tool.namespaceName = some ns ∧ ns ≠ "" ∧ w = namespaceMemberName ns tool.originalName

theorem wireName_of_shape {e : ToolEntry} (h : Shape e) {w : String} {tool : LoweredClientTool}
    (hw : e.name = some w) (hr : e.recipe = some tool) : WireName tool w := by
  cases h with
  | custom name description =>
    cases hw
    cases hr
    exact ⟨rfl, rfl⟩
  | shell description =>
    cases hw
    cases hr
    exact ⟨rfl, rfl⟩
  | toolSearch description parameters =>
    cases hw
    cases hr
    exact ⟨rfl, rfl⟩
  | functionMember hns hname hfunction =>
    cases hw
    cases hr
    exact ⟨_, rfl, hns, rfl⟩
  | customMember hns name description =>
    cases hw
    cases hr
    exact ⟨_, rfl, hns, rfl⟩
  | discovered hname hsanitized => cases hr
  | function tool => cases hr
  | other tool => cases hr

end Views

section Restoration

variable (R : Readers)

def Restorable (tool : LoweredClientTool) (call : Json) : Prop :=
  let arguments := (strField "arguments" call).getD ""
  match tool.restore with
  | .namespaceMember => True
  | .custom | .namespaceCustom => usableCallId call ≠ none ∧ R.inputEnvelope arguments ≠ none
  | .shell =>
    parseShellAction R arguments ≠ none ∧ usableCallId call ≠ none ∧ restoreCallStatus call ≠ none
  | .toolSearch =>
    (isBlank ((itemId call).getD "") || isBlank ((strField "call_id" call).getD "") ||
      (call.get? "namespace").any (!isNull ·)) = false ∧
    restoreCallStatus call ≠ none ∧ R.fromStr arguments ≠ none

variable {R} {reverse : KeyedMap String LoweredClientTool} {tool : LoweredClientTool}
  {call out : Json} {w : String}

theorem get?_carryCaller {key : String} (hne : key ≠ "caller") (out source : Json) :
    (carryCaller out source).get? key = out.get? key := by
  rw [carryCaller]
  split
  · exact Json.get?_insert_of_ne hne _ _
  · rfl

theorem restoreCustomCall_eq_some (h : restoreCustomCall R call = some out) :
    ∃ callId input, usableCallId call = some callId ∧
      R.inputEnvelope ((strField "arguments" call).getD "") = some input ∧
      out = carryCaller (.obj [("type", .str "custom_tool_call"),
        ("id", .str (customPublicItemId ((itemId call).getD ""))), ("call_id", .str callId),
        ("name", (call.get? "name").getD .null), ("input", .str input)]) call := by
  obtain ⟨callId, hcallId, h⟩ := bind_eq_some_iff.mp h
  obtain ⟨input, hinput, h⟩ := map_eq_some_iff.mp h
  exact ⟨callId, input, hcallId, hinput, h.symm⟩

theorem get?_of_strField {key value : String} {item : Json} (h : strField key item = some value) :
    item.get? key = some (.str value) := by
  obtain ⟨found, hfound, hstr⟩ := bind_eq_some_iff.mp h
  cases found <;> cases hstr
  exact hfound

theorem strField_of_get? {key value : String} {item : Json}
    (h : item.get? key = some (.str value)) : strField key item = some value := by
  rw [strField, h]
  rfl

/-- A function call under a private name, as the reverse map has it. -/
structure PrivateCall (reverse : KeyedMap String LoweredClientTool) (tool : LoweredClientTool)
    (w : String) (call : Json) : Prop where
  recipe : reverse.lookup w = some tool
  wire : WireName tool w
  type : itemType call = some "function_call"
  name : strField "name" call = some w

theorem PrivateCall.restore (h : PrivateCall reverse tool w call) :
    restoreOutputItem R reverse call =
      match tool.restore with
      | .custom => (restoreCustomCall R call).elim (.error "custom_tool_call") .ok
      | .namespaceMember => .ok (restoreNamespaceCall call tool.originalName tool.namespaceName)
      | .namespaceCustom =>
        (restoreNamespaceCustomCall R call tool.originalName tool.namespaceName).elim
          (.error "custom_tool_call") .ok
      | .shell => (restoreShellCall R call).elim (.error "shell_call") .ok
      | .toolSearch => (restoreToolSearchCall R call).elim (.error "tool_search_call") .ok := by
  rcases hkind : tool.restore with _ | _ | _ | _ | _ <;>
    simp only [restoreOutputItem, if_pos h.type, h.name, bind_some, h.recipe, hkind]

theorem restoreCustomCall_fields (hname : strField "name" call = some w)
    (h : restoreCustomCall R call = some out) :
    (∃ fields, out = .obj fields) ∧ itemType out = some "custom_tool_call" ∧
      strField "name" out = some w ∧ out.get? "namespace" = none := by
  obtain ⟨callId, input, -, -, rfl⟩ := restoreCustomCall_eq_some h
  rw [get?_of_strField hname, itemType, strField, strField, get?_carryCaller (by decide),
    get?_carryCaller (by decide), get?_carryCaller (by decide)]
  refine ⟨?_, rfl, rfl, rfl⟩
  rw [carryCaller]
  split <;> exact ⟨_, rfl⟩

theorem publicAs_inNamespace {kind : String} {item : Json} {ns : String}
    (hobj : ∃ fields, item = .obj fields) (htype : itemType item = some kind)
    (hkind : publicType tool.restore = kind) (hname : publicName tool = some tool.originalName)
    (hns : tool.namespaceName = some ns) :
    PublicAs tool (withNamespace (item.insert "name" (.str tool.originalName))
      tool.namespaceName) := by
  obtain ⟨fields, rfl⟩ := hobj
  rw [hns]
  refine ⟨?_, ?_, ?_⟩
  · rw [hkind, ← htype, withNamespace, itemType, itemType, strField, strField,
      Json.get?_insert_of_ne (by decide), Json.get?_insert_of_ne (by decide)]
  · rw [hname]
    refine strField_of_get? ?_
    rw [withNamespace, Json.get?_insert_of_ne (by decide), Json.get?_insert]
  · rw [hns]
    exact strField_of_get? (Json.get?_insert _ _ _)

theorem PrivateCall.public_custom (h : PrivateCall reverse tool w call)
    (hkind : tool.restore = .custom) (hout : restoreCustomCall R call = some out) :
    PublicAs tool out := by
  obtain ⟨-, htype, hname, hns⟩ := restoreCustomCall_fields h.name hout
  have hwire := h.wire
  rw [WireName, hkind] at hwire
  obtain ⟨hspace, rfl⟩ := hwire
  refine ⟨?_, ?_, ?_⟩
  · rw [hkind]
    exact htype
  · rw [publicName, hkind]
    exact hname
  · rw [hspace, strField, hns]
    rfl

theorem PrivateCall.public_namespaceCustom (h : PrivateCall reverse tool w call)
    (hkind : tool.restore = .namespaceCustom) (hout : restoreCustomCall R call = some out) :
    PublicAs tool (withNamespace (out.insert "name" (.str tool.originalName))
      tool.namespaceName) := by
  obtain ⟨hobj, htype, -, -⟩ := restoreCustomCall_fields h.name hout
  have hwire := h.wire
  rw [WireName, hkind] at hwire
  obtain ⟨ns, hns, -, -⟩ := hwire
  exact publicAs_inNamespace hobj htype (by rw [hkind]; rfl) (by rw [publicName, hkind]) hns

theorem PrivateCall.public_namespaceMember (h : PrivateCall reverse tool w call)
    (hkind : tool.restore = .namespaceMember) :
    PublicAs tool (restoreNamespaceCall call tool.originalName tool.namespaceName) := by
  have hwire := h.wire
  rw [WireName, hkind] at hwire
  obtain ⟨ns, hns, -, -⟩ := hwire
  exact publicAs_inNamespace (isObject_of_type h.type) h.type (by rw [hkind]; rfl)
    (by rw [publicName, hkind]) hns

theorem restoreShellCall_eq_some (h : restoreShellCall R call = some out) :
    ∃ action callId status,
      parseShellAction R ((strField "arguments" call).getD "") = some action ∧
      usableCallId call = some callId ∧
      out = carryCaller (.obj [("type", .str "shell_call"),
        ("id", .str (shellPublicItemId ((itemId call).getD ""))), ("call_id", .str callId),
        ("action", action), ("environment", .obj [("type", .str "local")]),
        ("status", .str status)]) call := by
  obtain ⟨action, haction, h⟩ := bind_eq_some_iff.mp h
  obtain ⟨callId, hcallId, h⟩ := bind_eq_some_iff.mp h
  obtain ⟨status, -, h⟩ := map_eq_some_iff.mp h
  exact ⟨action, callId, status, haction, hcallId, h.symm⟩

theorem PrivateCall.public_shell (h : PrivateCall reverse tool w call)
    (hkind : tool.restore = .shell) (hout : restoreShellCall R call = some out) :
    PublicAs tool out := by
  obtain ⟨action, callId, status, -, -, rfl⟩ := restoreShellCall_eq_some hout
  have hwire := h.wire
  rw [WireName, hkind] at hwire
  refine ⟨?_, ?_, ?_⟩
  · rw [hkind, itemType, strField, get?_carryCaller (by decide)]
    rfl
  · rw [publicName, hkind, strField, get?_carryCaller (by decide)]
    rfl
  · rw [hwire.1, strField, get?_carryCaller (by decide)]
    rfl

theorem restoreToolSearchCall_eq_some (h : restoreToolSearchCall R call = some out) :
    ∃ arguments status, R.fromStr ((strField "arguments" call).getD "") = some arguments ∧
      out = .obj [("type", .str "tool_search_call"),
        ("id", .str (toolSearchPublicItemId ((itemId call).getD ""))),
        ("call_id", .str ((strField "call_id" call).getD "")), ("execution", .str "client"),
        ("arguments", arguments), ("status", .str status)] := by
  rw [restoreToolSearchCall] at h
  split at h
  · cases h
  · obtain ⟨status, -, h⟩ := bind_eq_some_iff.mp h
    obtain ⟨arguments, harguments, h⟩ := map_eq_some_iff.mp h
    exact ⟨arguments, status, harguments, h.symm⟩

theorem PrivateCall.public_toolSearch (h : PrivateCall reverse tool w call)
    (hkind : tool.restore = .toolSearch) (hout : restoreToolSearchCall R call = some out) :
    PublicAs tool out := by
  obtain ⟨arguments, status, -, rfl⟩ := restoreToolSearchCall_eq_some hout
  have hwire := h.wire
  rw [WireName, hkind] at hwire
  refine ⟨?_, ?_, ?_⟩
  · rw [hkind]
    rfl
  · rw [publicName, hkind]
    rfl
  · rw [hwire.1]
    rfl

theorem restoreCustomCall_isSome :
    restoreCustomCall R call ≠ none ↔
      usableCallId call ≠ none ∧ R.inputEnvelope ((strField "arguments" call).getD "") ≠ none := by
  rw [restoreCustomCall]
  rcases usableCallId call with _ | callId
  · simp
  · rcases R.inputEnvelope ((strField "arguments" call).getD "") with _ | input <;> simp

theorem restoreShellCall_isSome :
    restoreShellCall R call ≠ none ↔
      parseShellAction R ((strField "arguments" call).getD "") ≠ none ∧
        usableCallId call ≠ none ∧ restoreCallStatus call ≠ none := by
  rw [restoreShellCall]
  rcases parseShellAction R ((strField "arguments" call).getD "") with _ | action
  · simp
  · rcases usableCallId call with _ | callId
    · simp
    · rcases restoreCallStatus call with _ | status <;> simp

theorem restoreToolSearchCall_isSome :
    restoreToolSearchCall R call ≠ none ↔
      (isBlank ((itemId call).getD "") || isBlank ((strField "call_id" call).getD "") ||
        (call.get? "namespace").any (!isNull ·)) = false ∧
      restoreCallStatus call ≠ none ∧ R.fromStr ((strField "arguments" call).getD "") ≠ none := by
  rw [restoreToolSearchCall]
  split
  · rename_i hblank
    simp [hblank]
  · rename_i hblank
    rw [Bool.not_eq_true] at hblank
    rcases restoreCallStatus call with _ | status
    · simp
    · rcases R.fromStr ((strField "arguments" call).getD "") with _ | arguments <;> simp [hblank]

/-- A call of a private function is restored for its tool, or refused under the tool's type. -/
theorem PrivateCall.outcome (h : PrivateCall reverse tool w call) :
    (Restorable R tool call → ∃ out, restoreOutputItem R reverse call = .ok out ∧
      PublicAs tool out) ∧
    (¬ Restorable R tool call →
      restoreOutputItem R reverse call = .error (publicType tool.restore)) := by
  rw [h.restore, Restorable]
  rcases hkind : tool.restore with _ | _ | _ | _ | _
  · dsimp only
    rw [← restoreCustomCall_isSome]
    rcases hout : restoreCustomCall R call with _ | out
    · exact ⟨fun hsome => absurd rfl hsome, fun _ => rfl⟩
    · exact ⟨fun _ => ⟨out, rfl, h.public_custom hkind hout⟩,
        fun hnone => absurd (some_ne_none out) hnone⟩
  · exact ⟨fun _ => ⟨_, rfl, h.public_namespaceMember hkind⟩, fun hnot => absurd trivial hnot⟩
  · dsimp only
    rw [← restoreCustomCall_isSome, restoreNamespaceCustomCall]
    rcases hout : restoreCustomCall R call with _ | out
    · exact ⟨fun hsome => absurd rfl hsome, fun _ => rfl⟩
    · exact ⟨fun _ => ⟨_, rfl, h.public_namespaceCustom hkind hout⟩,
        fun hnone => absurd (some_ne_none out) hnone⟩
  · dsimp only
    rw [← restoreShellCall_isSome]
    rcases hout : restoreShellCall R call with _ | out
    · exact ⟨fun hsome => absurd rfl hsome, fun _ => rfl⟩
    · exact ⟨fun _ => ⟨out, rfl, h.public_shell hkind hout⟩,
        fun hnone => absurd (some_ne_none out) hnone⟩
  · dsimp only
    rw [← restoreToolSearchCall_isSome]
    rcases hout : restoreToolSearchCall R call with _ | out
    · exact ⟨fun hsome => absurd rfl hsome, fun _ => rfl⟩
    · exact ⟨fun _ => ⟨out, rfl, h.public_toolSearch hkind hout⟩,
        fun hnone => absurd (some_ne_none out) hnone⟩

end Restoration

section History

variable {R : Readers} {reverse : KeyedMap String LoweredClientTool} {tool : LoweredClientTool}
  {item : Json} {w : String}

structure CallOf (tool : LoweredClientTool) (item : Json) : Prop extends PublicAs tool item where
  keys : UniqueKeys item
  client : tool.restore = .shell ∨ tool.restore = .toolSearch → isClientExecutedToolCall item

def payloadField : ClientToolRestore → String
  | .custom | .namespaceCustom => "input"
  | .shell => "action"
  | .namespaceMember | .toolSearch => "arguments"

def isShellAction (action : Json) : Bool :=
  action.asObj.isSome &&
    ((action.get? "commands").bind Json.asArr).any (·.all fun c => c.asStr.isSome) &&
    !isBadU64 action "timeout_ms" && !isBadU64 action "max_output_length"

/-- What the call must have to be restored, with readers that read back what was written. -/
def Complete (R : Readers) (tool : LoweredClientTool) (item : Json) : Prop :=
  match tool.restore with
  | .namespaceMember => True
  | .custom | .namespaceCustom =>
    usableCallId item ≠ none ∧ ∃ input, item.get? "input" = some (.str input) ∧
      R.inputEnvelope (Json.obj [("input", .str input)]).text = some input
  | .shell =>
    usableCallId item ≠ none ∧ ∃ action, item.get? "action" = some action ∧
      isShellAction action ∧ R.fromStr action.text = some action
  | .toolSearch =>
    (itemId item).any (!isBlank ·) ∧ usableCallId item ≠ none ∧
      ∃ arguments, item.get? "arguments" = some arguments ∧
        R.fromStr arguments.text = some arguments

/-- A shell action gets explicit nulls for the limits it leaves out. -/
def restoredPayload (kind : ClientToolRestore) (payload : Json) : Json :=
  if kind = .shell then orNull (orNull payload "timeout_ms") "max_output_length" else payload

/-- What has become of a call on its way to the backend and back. -/
structure Returned (tool : LoweredClientTool) (item out : Json) : Prop extends
    PublicAs tool out where
  callId : out.get? "call_id" = item.get? "call_id"
  payload : out.get? (payloadField tool.restore) =
    (item.get? (payloadField tool.restore)).map (restoredPayload tool.restore)

theorem returned_of_payload {out payload : Json} (hpublic : PublicAs tool out)
    (hid : out.get? "call_id" = item.get? "call_id")
    (hitem : item.get? (payloadField tool.restore) = some payload)
    (hout : out.get? (payloadField tool.restore) = some (restoredPayload tool.restore payload)) :
    Returned tool item out := by
  refine ⟨hpublic, hid, ?_⟩
  rw [hitem, map_some]
  exact hout

structure Dressed (bare call : Json) : Prop where
  kept : ∀ key, key ≠ "id" → key ≠ "status" → key ≠ "caller" → call.get? key = bare.get? key

theorem dressed_insert {bare call : Json} (h : Dressed bare call) {key : String}
    (hkey : key = "id" ∨ key = "status" ∨ key = "caller") (value : Json) :
    Dressed bare (call.insert key value) := by
  refine ⟨fun key' hid hstatus hcaller => ?_⟩
  rw [Json.get?_insert_of_ne, h.kept key' hid hstatus hcaller]
  rcases hkey with rfl | rfl | rfl
  · exact hid
  · exact hstatus
  · exact hcaller

theorem dressed_functionCallItemId {bare call : Json} (h : Dressed bare call) (source : Json) :
    Dressed bare (applyFunctionCallItemId call source) := by
  rw [applyFunctionCallItemId]
  split
  · exact dressed_insert h (.inl rfl) _
  · exact h

theorem dressed_itemId {bare call : Json} (h : Dressed bare call) (source : Json) :
    Dressed bare (applyItemId call source) := by
  rw [applyItemId]
  split
  · exact dressed_insert h (.inl rfl) _
  · exact h

theorem dressed_status {bare call : Json} (h : Dressed bare call) (source : Json) :
    Dressed bare (applyMessageStatus call source) := by
  rw [applyMessageStatus]
  split
  · split
    · exact dressed_insert h (.inr (.inl rfl)) _
    · exact h
  · exact h

theorem dressed_caller {bare call : Json} (h : Dressed bare call) (source : Json) :
    Dressed bare (carryCaller call source) := by
  rw [carryCaller]
  split
  · exact dressed_insert h (.inr (.inr rfl)) _
  · exact h

theorem dressed_refl (bare : Json) : Dressed bare bare := ⟨fun _ _ _ _ => rfl⟩

theorem usableCallId_get? {callId : String} (h : usableCallId item = some callId) :
    item.get? "call_id" = some (.str callId) :=
  get?_of_strField (filter_eq_some_iff.mp h).1

/-- A call that is built from an item and dressed reads as it was built. -/
theorem Dressed.read {call name : Json} {arguments : String}
    (h : Dressed (functionCall item name arguments) call) :
    itemType call = some "function_call" ∧ call.get? "name" = some name ∧
      call.get? "namespace" = none ∧ strField "arguments" call = some arguments ∧
      call.get? "call_id" = some ((item.get? "call_id").getD .null) := by
  have hread : ∀ key, key ≠ "id" → key ≠ "status" → key ≠ "caller" →
      call.get? key = (functionCall item name arguments).get? key := h.kept
  rw [itemType, strField, strField, hread "type" (by decide) (by decide) (by decide),
    hread "name" (by decide) (by decide) (by decide),
    hread "namespace" (by decide) (by decide) (by decide),
    hread "arguments" (by decide) (by decide) (by decide),
    hread "call_id" (by decide) (by decide) (by decide)]
  exact ⟨rfl, rfl, rfl, rfl, rfl⟩

theorem Dressed.usableCallId {call name : Json} {arguments callId : String}
    (h : Dressed (functionCall item name arguments) call)
    (hcallId : ClientToolPlans.usableCallId item = some callId) :
    ClientToolPlans.usableCallId call = some callId := by
  have hget := h.read.2.2.2.2
  rw [usableCallId_get? hcallId, getD_some] at hget
  rw [ClientToolPlans.usableCallId, strField_of_get? hget]
  exact filter_eq_some_iff.mpr ⟨rfl, (filter_eq_some_iff.mp hcallId).2⟩

theorem Dressed.privateCall {call : Json} {arguments : String}
    (h : Dressed (functionCall item (.str w) arguments) call)
    (hlookup : reverse.lookup w = some tool) (hwire : WireName tool w) :
    PrivateCall reverse tool w call :=
  ⟨hlookup, hwire, h.read.1, strField_of_get? h.read.2.1⟩

theorem get?_withNamespace {key : String} (hne : key ≠ "namespace") (item : Json)
    (ns : Option String) : (withNamespace item ns).get? key = item.get? key := by
  cases ns with
  | none => rfl
  | some ns => exact Json.get?_insert_of_ne hne _ _

theorem namespacedHistoryCallName_eq
    (hkind : tool.restore = .custom ∨ tool.restore = .namespaceCustom) (hitem : CallOf tool item)
    (hwire : WireName tool w) : namespacedHistoryCallName item = .str w := by
  have hspace := hitem.space
  have hname := hitem.name
  rw [WireName] at hwire
  rw [publicName] at hname
  rcases hkind with hkind | hkind
  · rw [hkind] at hwire hname
    obtain ⟨hnone, rfl⟩ := hwire
    rw [hnone] at hspace
    rw [namespacedHistoryCallName, nonEmpty, hspace]
    dsimp only [filter_none]
    rw [get?_of_strField hname]
    rfl
  · rw [hkind] at hwire hname
    obtain ⟨ns, hns, hempty, rfl⟩ := hwire
    rw [hns] at hspace
    have hnonEmpty : nonEmpty "namespace" item = some ns := by
      rw [nonEmpty, hspace]
      exact filter_eq_some_iff.mpr ⟨rfl, by simpa using hempty⟩
    rw [namespacedHistoryCallName, hnonEmpty]
    dsimp only
    rw [hname]
    rfl

theorem customCall_dressed (hname : namespacedHistoryCallName item = .str w) {input : String}
    (hinput : item.get? "input" = some (.str input)) :
    Dressed (functionCall item (.str w) (Json.obj [("input", .str input)]).text)
      (customCallToFunctionCall item) := by
  rw [customCallToFunctionCall, hname, strField_of_get? hinput]
  exact dressed_caller (dressed_status (dressed_functionCallItemId (dressed_refl _) _) _) _

theorem restoreCustomCall_returned {call : Json} {callId input : String}
    (hcall : Dressed (functionCall item (.str w) (Json.obj [("input", .str input)]).text) call)
    (hcallId : usableCallId item = some callId)
    (hinput : R.inputEnvelope (Json.obj [("input", .str input)]).text = some input) :
    ∃ out, restoreCustomCall R call = some out ∧
      out.get? "call_id" = some (.str callId) ∧ out.get? "input" = some (.str input) := by
  have harguments := hcall.read.2.2.2.1
  have hsome : restoreCustomCall R call ≠ none := by
    rw [restoreCustomCall_isSome, hcall.usableCallId hcallId, harguments, getD_some, hinput]
    exact ⟨some_ne_none _, some_ne_none _⟩
  obtain ⟨out, hout⟩ := ne_none_iff_exists'.mp hsome
  refine ⟨out, hout, ?_⟩
  obtain ⟨callId', input', hcallId', hinput', rfl⟩ := restoreCustomCall_eq_some hout
  rw [hcall.usableCallId hcallId] at hcallId'
  rw [harguments, getD_some, hinput] at hinput'
  cases hcallId'
  cases hinput'
  rw [get?_carryCaller (by decide), get?_carryCaller (by decide)]
  exact ⟨rfl, rfl⟩

theorem custom_returns (hlookup : reverse.lookup w = some tool) (hwire : WireName tool w)
    (hkind : tool.restore = .custom ∨ tool.restore = .namespaceCustom) (hitem : CallOf tool item)
    (hcomplete : Complete R tool item) :
    ∃ out, restoreOutputItem R reverse (customCallToFunctionCall item) = .ok out ∧
      Returned tool item out := by
  have hparts : usableCallId item ≠ none ∧ ∃ input, item.get? "input" = some (.str input) ∧
      R.inputEnvelope (Json.obj [("input", .str input)]).text = some input := by
    rw [Complete] at hcomplete
    rcases hkind with hkind | hkind <;> rw [hkind] at hcomplete <;> exact hcomplete
  obtain ⟨husable, input, hget, hinput⟩ := hparts
  obtain ⟨callId, hcallId⟩ := ne_none_iff_exists'.mp husable
  have hdressed := customCall_dressed (namespacedHistoryCallName_eq hkind hitem hwire) hget
  have hcall := hdressed.privateCall hlookup hwire
  obtain ⟨out, hout, hid, hpayload⟩ := restoreCustomCall_returned hdressed hcallId hinput
  rw [← usableCallId_get? hcallId] at hid
  rcases hkind with hkind | hkind
  · refine ⟨out, ?_, returned_of_payload (hcall.public_custom hkind hout) hid
      (by rw [hkind]; exact hget) ?_⟩
    · rw [hcall.restore, hkind, hout]
      rfl
    · rw [hkind]
      exact hpayload
  · refine ⟨_, ?_, returned_of_payload (hcall.public_namespaceCustom hkind hout) ?_
      (by rw [hkind]; exact hget) ?_⟩
    · rw [hcall.restore, hkind, restoreNamespaceCustomCall, hout]
      rfl
    · rw [get?_withNamespace (by decide), Json.get?_insert_of_ne (by decide)]
      exact hid
    · rw [hkind, payloadField, get?_withNamespace (by decide), Json.get?_insert_of_ne (by decide)]
      exact hpayload

/-- A member's call is renamed there and back, and nothing else of it is touched. -/
theorem namespaceMember_returns (hlookup : reverse.lookup w = some tool)
    (hwire : WireName tool w) (hkind : tool.restore = .namespaceMember)
    (hitem : CallOf tool item) :
    ∃ ns out, nonEmpty "namespace" item = some ns ∧
      restoreOutputItem R reverse (flattenNamespacedHistoryCall item ns) = .ok out ∧
      Returned tool item out := by
  have hwire' := hwire
  have hspace := hitem.space
  have hname := hitem.name
  have htype := hitem.type
  rw [WireName, hkind] at hwire'
  rw [publicName, hkind] at hname
  rw [hkind] at htype
  obtain ⟨ns, hns, hempty, rfl⟩ := hwire'
  rw [hns] at hspace
  have hnonEmpty : nonEmpty "namespace" item = some ns := by
    rw [nonEmpty, hspace]
    exact filter_eq_some_iff.mpr ⟨rfl, by simpa using hempty⟩
  obtain ⟨fields, hfields⟩ := isObject_of_type htype
  -- the call has the item's fields, but for the name and the namespace
  have hkept : ∀ key, key ≠ "name" → key ≠ "namespace" →
      (flattenNamespacedHistoryCall item ns).get? key = item.get? key := by
    intro key hne hne'
    rw [flattenNamespacedHistoryCall, (hitem.keys.insert _ _).get?_remove hne',
      Json.get?_insert_of_ne hne]
  have hflat : (flattenNamespacedHistoryCall item ns).get? "name" =
      some (.str (namespaceMemberName ns tool.originalName)) := by
    rw [flattenNamespacedHistoryCall, (hitem.keys.insert _ _).get?_remove (by decide), hname,
      hfields, Json.get?_insert]
    rfl
  have hcall : PrivateCall reverse tool (namespaceMemberName ns tool.originalName)
      (flattenNamespacedHistoryCall item ns) := by
    refine ⟨hlookup, hwire, ?_, strField_of_get? hflat⟩
    rw [itemType, strField, hkept "type" (by decide) (by decide)]
    exact htype
  refine ⟨ns, _, hnonEmpty, ?_, hcall.public_namespaceMember hkind, ?_, ?_⟩
  · rw [hcall.restore, hkind]
  · rw [restoreNamespaceCall, get?_withNamespace (by decide), Json.get?_insert_of_ne (by decide),
      hkept _ (by decide) (by decide)]
  · rw [hkind, payloadField, restoreNamespaceCall, get?_withNamespace (by decide),
      Json.get?_insert_of_ne (by decide), hkept _ (by decide) (by decide)]
    exact map_id'.symm

theorem parseShellAction_of_valid {action : Json} {text : String} (hvalid : isShellAction action)
    (hread : R.fromStr text = some action) :
    parseShellAction R text = some (restoredPayload .shell action) := by
  rw [isShellAction, Bool.and_eq_true, Bool.and_eq_true, Bool.and_eq_true, Bool.not_eq_true',
    Bool.not_eq_true', any_eq_true] at hvalid
  obtain ⟨⟨⟨hobj, commands, hcommands, hall⟩, htimeout⟩, hlength⟩ := hvalid
  obtain ⟨fields, hfields⟩ := isSome_iff_exists.mp hobj
  rw [parseShellAction, hread, bind_some, hfields, hcommands]
  dsimp only
  rw [hall, htimeout, hlength]
  rfl

theorem restoreCallStatus_applied {bare : Json} (source : Json) (hbare : bare.get? "status" = none)
    (hobj : ∃ fields, bare = .obj fields) :
    restoreCallStatus (applyMessageStatus bare source) ≠ none := by
  obtain ⟨fields, rfl⟩ := hobj
  rw [applyMessageStatus]
  split
  · rename_i status _
    split
    · rename_i hknown
      rw [restoreCallStatus, Json.get?_insert]
      rcases hknown with rfl | rfl | rfl <;> exact some_ne_none _
    · rw [restoreCallStatus, hbare]
      exact some_ne_none _
  · rw [restoreCallStatus, hbare]
    exact some_ne_none _

theorem restoreCallStatus_carryCaller (out source : Json) :
    restoreCallStatus (carryCaller out source) = restoreCallStatus out := by
  rw [restoreCallStatus, restoreCallStatus, get?_carryCaller (by decide)]

theorem applyFunctionCallItemId_object {bare : Json} (source : Json)
    (hbare : bare.get? "status" = none) (hobj : ∃ fields, bare = .obj fields) :
    (applyFunctionCallItemId bare source).get? "status" = none ∧
      ∃ fields, applyFunctionCallItemId bare source = .obj fields := by
  obtain ⟨fields, rfl⟩ := hobj
  rw [applyFunctionCallItemId]
  split
  · exact ⟨by rw [Json.get?_insert_of_ne (by decide), hbare], _, rfl⟩
  · exact ⟨hbare, _, rfl⟩

theorem shell_returns (hlookup : reverse.lookup w = some tool) (hwire : WireName tool w)
    (hkind : tool.restore = .shell) (hcomplete : Complete R tool item) :
    ∃ out, restoreOutputItem R reverse (shellCallToFunctionCall item) = .ok out ∧
      Returned tool item out := by
  have hw : w = shellFunctionName := by
    rw [WireName, hkind] at hwire
    exact hwire.2
  rw [Complete, hkind] at hcomplete
  obtain ⟨husable, action, hget, hvalid, hread⟩ := hcomplete
  obtain ⟨callId, hcallId⟩ := ne_none_iff_exists'.mp husable
  have hdressed : Dressed (functionCall item (.str w) action.text)
      (shellCallToFunctionCall item) := by
    rw [shellCallToFunctionCall, hget, hw]
    exact dressed_caller (dressed_status (dressed_functionCallItemId (dressed_refl _) _) _) _
  have hcall := hdressed.privateCall hlookup hwire
  have harguments := hdressed.read.2.2.2.1
  have hparsed := parseShellAction_of_valid hvalid hread
  have hstatus : restoreCallStatus (shellCallToFunctionCall item) ≠ none := by
    obtain ⟨hnone, hobj⟩ := applyFunctionCallItemId_object item
      (show (functionCall item (.str shellFunctionName)
        ((item.get? "action").getD (.obj [])).text).get? "status" = none from rfl) ⟨_, rfl⟩
    rw [shellCallToFunctionCall, restoreCallStatus_carryCaller]
    exact restoreCallStatus_applied item hnone hobj
  have hsome : restoreShellCall R (shellCallToFunctionCall item) ≠ none := by
    rw [restoreShellCall_isSome, harguments, getD_some, hparsed, hdressed.usableCallId hcallId]
    exact ⟨some_ne_none _, some_ne_none _, hstatus⟩
  obtain ⟨out, hout⟩ := ne_none_iff_exists'.mp hsome
  have hpublic := hcall.public_shell hkind hout
  obtain ⟨action', callId', status, haction', hcallId', rfl⟩ := restoreShellCall_eq_some hout
  rw [harguments, getD_some, hparsed] at haction'
  rw [hdressed.usableCallId hcallId] at hcallId'
  cases haction'
  cases hcallId'
  refine ⟨_, ?_, returned_of_payload hpublic ?_ (by rw [hkind]; exact hget) ?_⟩
  · rw [hcall.restore, hkind, hout]
    rfl
  · rw [get?_carryCaller (by decide), usableCallId_get? hcallId]
    rfl
  · rw [hkind, payloadField, get?_carryCaller (by decide)]
    rfl

theorem get?_applyMessageStatus {key : String} (hne : key ≠ "status") (out source : Json) :
    (applyMessageStatus out source).get? key = out.get? key := by
  rw [applyMessageStatus]
  split
  · split
    · exact Json.get?_insert_of_ne hne _ _
    · rfl
  · rfl

theorem toolSearchCall_kept {id : String} (hid : itemId item = some id)
    (hblank : isBlank id = false) :
    itemId (toolSearchCallToFunctionCall item) = some id ∧
      restoreCallStatus (toolSearchCallToFunctionCall item) ≠ none := by
  have hne : id.isEmpty = false := by
    rw [Bool.eq_false_iff]
    intro hempty
    rw [String.isEmpty_iff.mp hempty] at hblank
    cases hblank
  have hnonEmpty : nonEmpty "id" item = some id :=
    filter_eq_some_iff.mpr ⟨hid, by rw [hne]; rfl⟩
  rw [toolSearchCallToFunctionCall, applyItemId, hnonEmpty]
  constructor
  · rw [itemId, strField, get?_applyMessageStatus (by decide)]
    exact congrArg (·.bind Json.asStr) (Json.get?_insert _ _ _)
  · exact restoreCallStatus_applied item rfl ⟨_, rfl⟩

theorem toolSearch_returns (hlookup : reverse.lookup w = some tool) (hwire : WireName tool w)
    (hkind : tool.restore = .toolSearch) (hcomplete : Complete R tool item) :
    ∃ out, restoreOutputItem R reverse (toolSearchCallToFunctionCall item) = .ok out ∧
      Returned tool item out := by
  have hw : w = toolSearchName := by
    rw [WireName, hkind] at hwire
    exact hwire.2
  rw [Complete, hkind] at hcomplete
  obtain ⟨hid, husable, arguments, hget, hread⟩ := hcomplete
  obtain ⟨callId, hcallId⟩ := ne_none_iff_exists'.mp husable
  obtain ⟨id, hid, hblank⟩ := (any_eq_true _ _).mp hid
  have hdressed : Dressed (functionCall item (.str w) arguments.text)
      (toolSearchCallToFunctionCall item) := by
    rw [toolSearchCallToFunctionCall, hget, hw]
    exact dressed_status (dressed_itemId (dressed_refl _) _) _
  have hcall := hdressed.privateCall hlookup hwire
  have harguments := hdressed.read.2.2.2.1
  rw [Bool.not_eq_true'] at hblank
  have hused := (filter_eq_some_iff.mp hcallId).2
  rw [Bool.not_eq_true'] at hused
  obtain ⟨hid', hstatus⟩ := toolSearchCall_kept hid hblank
  have hcallId' := hdressed.read.2.2.2.2
  rw [usableCallId_get? hcallId, getD_some] at hcallId'
  have hsome : restoreToolSearchCall R (toolSearchCallToFunctionCall item) ≠ none := by
    rw [restoreToolSearchCall_isSome, hid', strField_of_get? hcallId', hdressed.read.2.2.1,
      harguments, getD_some, getD_some, getD_some, hread, hblank, hused]
    exact ⟨rfl, hstatus, some_ne_none _⟩
  obtain ⟨out, hout⟩ := ne_none_iff_exists'.mp hsome
  have hpublic := hcall.public_toolSearch hkind hout
  obtain ⟨arguments', status, harguments', rfl⟩ := restoreToolSearchCall_eq_some hout
  rw [harguments, getD_some, hread] at harguments'
  cases harguments'
  refine ⟨_, ?_, returned_of_payload hpublic ?_ (by rw [hkind]; exact hget) ?_⟩
  · rw [hcall.restore, hkind, hout]
    rfl
  · rw [strField_of_get? hcallId', usableCallId_get? hcallId]
    rfl
  · rw [hkind]
    rfl

/-- A typed call of a lowered tool is shown to the backend as a call of its private function, which
is restored as the tool's call. -/
theorem history_returns (hlookup : reverse.lookup w = some tool) (hwire : WireName tool w)
    (hitem : CallOf tool item) (hcomplete : Complete R tool item) (ids : List String) :
    ∃ call out, lowerHistoryItem ids item = some call ∧
      restoreOutputItem R reverse call = .ok out ∧ Returned tool item out := by
  have htype := hitem.type
  rcases hkind : tool.restore with _ | _ | _ | _ | _
  · rw [hkind] at htype
    obtain ⟨out, hout, hreturned⟩ := custom_returns hlookup hwire (.inl hkind) hitem hcomplete
    exact ⟨_, out, by rw [lowerHistoryItem, htype]; rfl, hout, hreturned⟩
  · rw [hkind] at htype
    obtain ⟨ns, out, hns, hout, hreturned⟩ := namespaceMember_returns hlookup hwire hkind hitem
    exact ⟨_, out, by rw [lowerHistoryItem, htype, publicType, hns]; rfl, hout, hreturned⟩
  · rw [hkind] at htype
    obtain ⟨out, hout, hreturned⟩ := custom_returns hlookup hwire (.inr hkind) hitem hcomplete
    exact ⟨_, out, by rw [lowerHistoryItem, htype]; rfl, hout, hreturned⟩
  · rw [hkind] at htype
    obtain ⟨out, hout, hreturned⟩ := shell_returns hlookup hwire hkind hcomplete
    exact ⟨_, out, by rw [lowerHistoryItem, htype, publicType, hitem.client (.inl hkind)]; rfl,
      hout, hreturned⟩
  · rw [hkind] at htype
    obtain ⟨out, hout, hreturned⟩ := toolSearch_returns hlookup hwire hkind hcomplete
    exact ⟨_, out, by rw [lowerHistoryItem, htype, publicType, hitem.client (.inr hkind)]; rfl,
      hout, hreturned⟩

end History

section Requests

variable {same : Json → Json → Bool} {measure : RequestState → Except String ℕ} {limits : Limits}
  {streaming armed : Bool} {s s' : RequestState}

/-- Lowering is undone: a call under a private name is restored for the tool behind it or refused,
a typed call of the tool comes back from the backend, and no other call is touched. -/
theorem lowering_undone (R : Readers) (hs : Fresh s)
    (h : lowerRequest same measure limits streaming armed s = (.ok (), s')) :
    (∀ e ∈ requestEntries same s, ∀ w tool, e.name = some w → e.recipe = some tool →
      (∀ call, itemType call = some "function_call" → strField "name" call = some w →
        (Restorable R tool call → ∃ out,
          restoreOutputItem R s'.clientToolLowering call = .ok out ∧ PublicAs tool out) ∧
        (¬ Restorable R tool call →
          restoreOutputItem R s'.clientToolLowering call = .error (publicType tool.restore))) ∧
      (∀ item, CallOf tool item → Complete R tool item → ∀ ids, ∃ call out,
        lowerHistoryItem ids item = some call ∧
          restoreOutputItem R s'.clientToolLowering call = .ok out ∧ Returned tool item out)) ∧
    (∀ call, (∀ w, strField "name" call = some w → s'.clientToolLowering.lookup w = none) →
      restoreOutputItem R s'.clientToolLowering call = .ok call) := by
  have hdeclares := lowerRequest_ok same hs h
  constructor
  · intro e he w tool hw hr
    have hlookup : s'.clientToolLowering.lookup w = some tool := by
      rw [hdeclares.reverse, owner_of_mem hdeclares.compatible he hw, hr]
    have hwire := wireName_of_shape (shape_of_mem same he) hw hr
    refine ⟨fun call htype hname => ?_, fun item hitem hcomplete ids => ?_⟩
    · exact (PrivateCall.mk hlookup hwire htype hname).outcome
    · exact history_returns hlookup hwire hitem hcomplete ids
  · intro call hfree
    rw [restoreOutputItem]
    split
    · rcases hname : strField "name" call with _ | w
      · rfl
      · rw [bind_some, hfree w hname]
    · rfl

def shellTool : LoweredClientTool := ⟨"shell", none, .shell⟩

def listing : Json := .obj [("commands", .arr [.str "ls"])]

def shellCall (action : Json) : Json :=
  .obj [("type", .str "shell_call"), ("call_id", .str "call_1"), ("action", action),
    ("environment", .obj [("type", .str "local")])]

def readerOf (value : Json) : Readers :=
  ⟨fun text => if text = value.text then some value else none, fun _ => none⟩

theorem lowering_undone_shell :
    (lowerSample (withTools [plainFunction, localShell])).1 = .ok () ∧
      ∃ call out, lowerHistoryItem [] (shellCall listing) = some call ∧
        restoreOutputItem (readerOf listing)
          (lowerSample (withTools [plainFunction, localShell])).2.clientToolLowering call =
            .ok out ∧
        Returned shellTool (shellCall listing) out := by
  refine ⟨rfl, ?_⟩
  have hundone := lowering_undone (readerOf listing) (s := withTools [plainFunction, localShell])
    ⟨rfl, rfl⟩ (show lowerSample _ = (.ok (), _) from Prod.ext rfl rfl)
  have hshell := hundone.1 _ (List.mem_cons_of_mem _ List.mem_cons_self) "shell" shellTool rfl rfl
  refine hshell.2 (shellCall listing) ⟨⟨rfl, rfl, rfl⟩, ?_, fun _ => rfl⟩ ?_ []
  · exact (by decide : (((shellCall listing).asObj.getD []).map Prod.fst).Nodup)
  · exact ⟨(by decide), listing, rfl, rfl, by simp [readerOf]⟩

/-- The limits that an action leaves out come back as nulls. -/
theorem shell_action_completed :
    (lowerSample (withTools [localShell])).1 = .ok () ∧
      (shellCall listing).get? "action" = some listing ∧
      ∃ call out, lowerHistoryItem [] (shellCall listing) = some call ∧
        restoreOutputItem (readerOf listing)
          (lowerSample (withTools [localShell])).2.clientToolLowering call = .ok out ∧
        out.get? "action" = some (.obj [("commands", .arr [.str "ls"]), ("timeout_ms", .null),
          ("max_output_length", .null)]) :=
  ⟨rfl, rfl, _, _, rfl, rfl, rfl⟩

end Requests

end LoweringRoundTrip
