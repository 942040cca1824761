import PraxisAi.FallibleSteps
import PraxisAi.ResponseState

/-! # Reusing a stored tool listing

A request that names the tools it wants of an MCP server may take them from the listing that an
earlier response stored, in place of asking the server. The stored listing has passed the earlier
request's own filter and is spelled the way a response lists tools. -/
namespace CachedListings

open List
open JsonValues ResponseState FiniteTranslation KeyedMaps

/-- Names are lossy: two tools can have one name. -/
def encodeFunctionName (label toolName : String) : String :=
  String.ofList (((label ++ "__" ++ toolName).toList.map fun c =>
    if c.isAlphanum || c == '_' || c == '-' then c else '_').take maxFunctionNameLen)

section Allowed

structure AllowedTools where
  names : Option (List String) := none
  readOnly : Option Bool := none

def validateStringArray (index : ℕ) : List Json → Except String (List String)
  | [] => .ok []
  | .str s :: rest => do
    let names ← validateStringArray (index + 1) rest
    return s :: names
  | item :: _ =>
    .error (s!"allowed_tools[{index}] must be a string, got " ++ jsonTypeName item)

def requireFilterFields (fields : List (String × Json)) : Except String Unit :=
  match fields.find? fun field => field.1 ≠ "tool_names" ∧ field.1 ≠ "read_only" with
  | some field => .error ("unknown field \"" ++ field.1 ++ "\" in allowed_tools filter object")
  | none => .ok ()

def readToolNames : Option Json → Except String (Option (List String))
  | none => .ok none
  | some (.arr items) => (validateStringArray 0 items).map some
  | some value => .error ("allowed_tools.tool_names must be an array, got " ++ jsonTypeName value)

def readReadOnly : Option Json → Except String (Option Bool)
  | none => .ok none
  | some (.bool b) => .ok (some b)
  | some value => .error ("allowed_tools.read_only must be a boolean, got " ++ jsonTypeName value)

def extractFromFilterObject (fields : List (String × Json)) : Except String AllowedTools := do
  requireFilterFields fields
  let names ← readToolNames (fields.lookup "tool_names")
  let readOnly ← readReadOnly (fields.lookup "read_only")
  return ⟨names, readOnly⟩

def extractAllowedTools (entry : Json) : Except String AllowedTools :=
  match entry.get? "allowed_tools" with
  | none => .ok {}
  | some .null => .ok {}
  | some (.arr items) => (validateStringArray 0 items).map fun names => ⟨some names, none⟩
  | some (.obj fields) => extractFromFilterObject fields
  | some value =>
    .error ("allowed_tools must be an array of strings or an MCPToolFilter object, got " ++
      jsonTypeName value)

/-- The names that the entries of one resolution ask for; any entry without names asks for all. -/
def mergeAllowedNames (existing new : Option (List String)) : Option (List String) :=
  match new with
  | none => none
  | some newNames => existing.map fun names =>
      newNames.foldl (fun names name => if name ∈ names then names else names ++ [name]) names

def toolReadOnlyHint (tool : Json) : Bool :=
  (((tool.get? "annotations").bind (Json.get? "readOnlyHint")).bind asBool).getD false

def isAllowed (allowed : AllowedTools) (tool : Json) : Bool :=
  (allowed.names.all fun names => (strField "name" tool).any (names.contains ·)) &&
    allowed.readOnly.all fun wanted => toolReadOnlyHint tool == wanted

def applyAllowedToolsFilter (tools : List Json) (allowed : AllowedTools) : List Json :=
  if allowed.names.isNone && allowed.readOnly.isNone then tools
  else tools.filter (isAllowed allowed)

end Allowed

section Resolution

def serverLabel (entry : Json) : String := (strField "server_label" entry).getD "unknown"

/-- Both spellings of the schema are read, the one of a server first. -/
def inputSchema (definition : Json) : Json :=
  ((definition.get? "inputSchema").or (definition.get? "input_schema")).getD
    (.obj [("type", .str "object")])

def toolName (definition : Json) : String := (strField "name" definition).getD "unknown"

def mcpToolToFunctionTool (label : String) (definition : Json) : Json :=
  .obj ([("type", .str "function"), ("name", .str (encodeFunctionName label (toolName definition)))]
    ++ ((definition.get? "description").map fun text => ("description", text)).toList
    ++ [("parameters", inputSchema definition)])

def mcpToolToListToolsEntry (definition : Json) : Json :=
  .obj ([("name", .str (toolName definition)), ("input_schema", inputSchema definition)]
    ++ ((definition.get? "description").map fun text => ("description", text)).toList
    ++ ((definition.get? "annotations").map fun hints => ("annotations", hints)).toList)

abbrev ToolMap := KeyedMap (String × String) Json

def dispatch (entry tool : Json) : Json :=
  .obj [("server_label", .str (serverLabel entry)),
    ("server_url", .str ((strField "server_url" entry).getD "unknown")),
    ("headers", (entry.get? "headers").getD .null),
    ("authorization", (entry.get? "authorization").getD .null),
    ("require_approval", (entry.get? "require_approval").getD .null),
    ("connector_id", (entry.get? "connector_id").getD .null), ("tool_definition", tool)]

def insertTool (entry : Json) (toolMap : ToolMap) (tool : Json) : ToolMap :=
  match strField "name" tool with
  | none => toolMap
  | some name => toolMap.insert (serverLabel entry, name) (dispatch entry tool)

def insertTools (tools : List Json) (entry : Json) (toolMap : ToolMap) : ToolMap :=
  tools.foldl (insertTool entry) toolMap

/-- What an entry becomes: function tools for the body, and the tools of its listing. -/
structure Resolved where
  functionTools : List Json
  listingTools : List Json

def buildEntryResolution (entry : Json) (tools : Option (List Json)) (toolMap : ToolMap) :
    Except String (Option (Resolved × ToolMap)) :=
  match tools with
  | none => .ok none
  | some tools => do
    let allowed ← extractAllowedTools entry
    let filtered := applyAllowedToolsFilter tools allowed
    return some (⟨filtered.map (mcpToolToFunctionTool (serverLabel entry)),
      filtered.map mcpToolToListToolsEntry⟩, insertTools filtered entry toolMap)

end Resolution

section Listings

structure McpListing where
  serverLabel : String
  serverUrl : Option String
  tools : List Json

/-- The public item, and the record for the store where the listing may be reused. -/
def buildDiscoveryItem (generated : String) (listing : McpListing) : Json × Option Json :=
  (.obj [("id", .str ("mcpl_" ++ generated)), ("type", .str "mcp_list_tools"),
      ("server_label", .str listing.serverLabel), ("tools", .arr listing.tools)],
    listing.serverUrl.map fun url =>
      .obj [("type", .str "praxis_mcp_cached_listing"), ("server_label", .str listing.serverLabel),
        ("server_url", .str url), ("tools", .arr listing.tools)])

def ownerFingerprint : String := "_praxis_owner_fingerprint"

/-- A stored record as a later request sees it, bound to the owner that reads it. -/
def rehydrated (owner : String) (item : Json) : Option Json := do
  let label ← strField "server_label" item
  let tools ← (item.get? "tools").bind Json.asArr
  return (Json.obj ([("server_label", .str label), ("tools", .arr tools)] ++
    ((strField "server_url" item).map fun url => ("server_url", .str url)).toList)).insert
      ownerFingerprint (.str owner)

def isListingOf (label url : String) (owner : Option String) (record : Json) : Bool :=
  strField "server_label" record == some label && strField "server_url" record == some url &&
    strField ownerFingerprint record == owner

def findCachedListing (previousTools : Option (List Json)) (label url : String)
    (owner : Option String) (allowedTools : Option (List String)) : Option (List Json) := do
  let previous ← previousTools
  let allowed ← allowedTools
  let entry ← previous.reverse.find? (isListingOf label url owner)
  let cached ← (entry.get? "tools").bind Json.asArr
  if allowed.all fun name => cached.any fun tool => strField "name" tool == some name then
    some cached
  else none

def deferLoading (entry : Json) : Bool := ((entry.get? "defer_loading").bind asBool).getD false

def resolvableServerUrl (entry : Json) : Option String :=
  if (strField "server_label" entry).isNone then none
  else (strField "server_url" entry).filter fun _ => !deferLoading entry

variable (hasQuery : String → Bool)

/-- Credentials may stand in an entry's authorization, its headers or its address. -/
def hasEntryCredentials (entry : Json) : Bool :=
  (strField "authorization" entry).isSome ||
    (((entry.get? "headers").bind Json.asObj).any fun headers => !headers.isEmpty) ||
    (strField "server_url" entry).any hasQuery

def canReuseCachedListing (entry : Json) (isConnector : Bool) : Bool :=
  !isConnector && !hasEntryCredentials hasQuery entry

def reusableListingServerUrl (entry : Json) : Option String :=
  if canReuseCachedListing hasQuery entry (entry.get? "connector_id").isSome then
    resolvableServerUrl entry
  else none

structure Stored (full : List Json) (item : Json) : Prop where
  resolved : ∃ entry toolMap resolved toolMap' generated,
    buildEntryResolution entry (some full) toolMap = .ok (some (resolved, toolMap')) ∧
      (buildDiscoveryItem generated ⟨serverLabel entry, reusableListingServerUrl hasQuery entry,
        resolved.listingTools⟩).2 = some item

end Listings

section Reshaping

variable (definition : Json)

@[simp] theorem name_listToolsEntry :
    strField "name" (mcpToolToListToolsEntry definition) = some (toolName definition) := rfl

@[simp] theorem toolName_listToolsEntry :
    toolName (mcpToolToListToolsEntry definition) = toolName definition := rfl

@[simp] theorem description_listToolsEntry :
    (mcpToolToListToolsEntry definition).get? "description" = definition.get? "description" := by
  rw [mcpToolToListToolsEntry]
  cases definition.get? "description" <;> cases definition.get? "annotations" <;> rfl

@[simp] theorem annotations_listToolsEntry :
    (mcpToolToListToolsEntry definition).get? "annotations" = definition.get? "annotations" := by
  rw [mcpToolToListToolsEntry]
  cases definition.get? "description" <;> cases definition.get? "annotations" <;> rfl

@[simp] theorem inputSchema_listToolsEntry :
    inputSchema (mcpToolToListToolsEntry definition) = inputSchema definition := by
  have hserver : (mcpToolToListToolsEntry definition).get? "inputSchema" = none := by
    rw [mcpToolToListToolsEntry]
    cases definition.get? "description" <;> cases definition.get? "annotations" <;> rfl
  have hlisted : (mcpToolToListToolsEntry definition).get? "input_schema" =
      some (inputSchema definition) := by
    rw [mcpToolToListToolsEntry]
    rfl
  rw [inputSchema, hserver, hlisted]
  rfl

theorem functionTool_listToolsEntry (label : String) :
    mcpToolToFunctionTool label (mcpToolToListToolsEntry definition) =
      mcpToolToFunctionTool label definition := by
  simp [mcpToolToFunctionTool]

theorem listToolsEntry_idem :
    mcpToolToListToolsEntry (mcpToolToListToolsEntry definition) =
      mcpToolToListToolsEntry definition := by
  rw [mcpToolToListToolsEntry, toolName_listToolsEntry, inputSchema_listToolsEntry,
    description_listToolsEntry, annotations_listToolsEntry, ← mcpToolToListToolsEntry]

theorem isAllowed_listToolsEntry {definition : Json}
    (hname : (strField "name" definition).isSome) (allowed : AllowedTools) :
    isAllowed allowed (mcpToolToListToolsEntry definition) = isAllowed allowed definition := by
  obtain ⟨name, hname⟩ := Option.isSome_iff_exists.mp hname
  simp [isAllowed, toolReadOnlyHint, toolName, hname]

end Reshaping

section Covering

theorem applyAllowedToolsFilter_eq (tools : List Json) (allowed : AllowedTools) :
    applyAllowedToolsFilter tools allowed = tools.filter (isAllowed allowed) := by
  rw [applyAllowedToolsFilter]
  split_ifs with hnone
  · rw [Bool.and_eq_true, Option.isNone_iff_eq_none, Option.isNone_iff_eq_none] at hnone
    exact (filter_eq_self.mpr fun tool _ => by simp [isAllowed, hnone]).symm
  · rfl

theorem mem_addNames {names newNames : List String} {name : String} :
    name ∈ newNames.foldl (fun names name => if name ∈ names then names else names ++ [name])
      names ↔ name ∈ names ∨ name ∈ newNames := by
  induction newNames generalizing names with
  | nil => simp
  | cons first rest ih =>
    rw [foldl_cons, ih]
    split_ifs with hmem
    · rw [mem_cons]
      constructor
      · tauto
      · rintro (h | rfl | h)
        exacts [.inl h, .inl hmem, .inr h]
    · simp only [mem_append, mem_cons, not_mem_nil, or_false]
      tauto

theorem names_covered {first : Option (List String)} {others : List (Option (List String))}
    {union : List String} (hunion : others.foldl mergeAllowedNames first = some union)
    {names : Option (List String)} (hmem : names ∈ first :: others) :
    ∃ list, names = some list ∧ list ⊆ union := by
  induction others generalizing first names with
  | nil =>
    rw [mem_singleton] at hmem
    exact ⟨union, hmem.trans hunion, List.Subset.refl _⟩
  | cons next rest ih =>
    obtain ⟨merged, hmerged, hsub⟩ := ih hunion mem_cons_self
    cases next with
    | none => cases hmerged
    | some newNames =>
      obtain ⟨old, rfl, rfl⟩ := Option.map_eq_some_iff.mp hmerged
      simp only [mem_cons] at hmem
      rcases hmem with rfl | rfl | hmem
      · exact ⟨old, rfl, fun name h => hsub (mem_addNames.mpr (.inl h))⟩
      · exact ⟨newNames, rfl, fun name h => hsub (mem_addNames.mpr (.inr h))⟩
      · exact ih hunion (mem_cons_of_mem _ hmem)

structure Named (full : List Json) : Prop where
  names : ∀ tool ∈ full, (strField "name" tool).isSome
  distinct : (full.map (strField "name")).Nodup

variable {full : List Json}

/-- Where the names a filter asks for are all in what an earlier filter left, the earlier filter
took nothing away from it. -/
theorem filter_of_covered (hfull : Named full) {earlier later : AllowedTools} {names : List String}
    (hnames : later.names = some names)
    (hcovered : ∀ name ∈ names, ∃ tool ∈ full.filter (isAllowed earlier),
      strField "name" tool = some name) :
    (full.filter (isAllowed earlier)).filter (isAllowed later) = full.filter (isAllowed later) := by
  rw [filter_filter]
  refine filter_congr fun tool htool => ?_
  by_cases hlater : isAllowed later tool = true
  · obtain ⟨name, hname, hmem⟩ : ∃ name, strField "name" tool = some name ∧ name ∈ names := by
      simpa [isAllowed, hnames, Option.any_eq_true] using (Bool.and_eq_true _ _ ▸ hlater :).1
    obtain ⟨other, hother, hsame⟩ := hcovered name hmem
    obtain ⟨hfrom, hearlier⟩ := mem_filter.mp hother
    -- names are distinct, so this is the tool that the earlier filter kept
    have hequal : tool = other :=
      inj_on_of_nodup_map hfull.distinct htool hfrom (hname.trans hsame.symm)
    rw [hlater, hequal, hearlier]
    rfl
  · rw [Bool.not_eq_true] at hlater
    rw [hlater, Bool.false_and]

theorem filter_listed (hfull : Named full) {tools : List Json} (hsub : tools ⊆ full)
    (allowed : AllowedTools) :
    (tools.map mcpToolToListToolsEntry).filter (isAllowed allowed) =
      (tools.filter (isAllowed allowed)).map mcpToolToListToolsEntry := by
  rw [filter_map]
  congr 1
  exact filter_congr fun tool htool =>
    isAllowed_listToolsEntry (hfull.names tool (hsub htool)) allowed

theorem keys_insertTools {tools : List Json} (entry : Json)
    (hnames : ∀ tool ∈ tools, (strField "name" tool).isSome) {a b : ToolMap} (h : a.keys = b.keys) :
    (insertTools (tools.map mcpToolToListToolsEntry) entry a).keys =
      (insertTools tools entry b).keys := by
  rw [insertTools, insertTools]
  induction tools generalizing a b with
  | nil => exact h
  | cons tool rest ih =>
    obtain ⟨name, hname⟩ := Option.isSome_iff_exists.mp (hnames tool mem_cons_self)
    refine ih (fun tool htool => hnames tool (mem_cons_of_mem _ htool)) ?_
    rw [insertTool, insertTool, name_listToolsEntry, toolName, hname]
    simp [AList.keys_insert, h]

end Covering

section Reuse

variable {full : List Json}

/-- A stored item holds what some filter leaves of the full list. -/
theorem Stored.tools {hasQuery : String → Bool} {item : Json} (h : Stored hasQuery full item) :
    ∃ allowed : AllowedTools, item.get? "tools" =
      some (.arr ((full.filter (isAllowed allowed)).map mcpToolToListToolsEntry)) := by
  obtain ⟨entry, toolMap, resolved, toolMap', generated, hbuild, hitem⟩ := h.resolved
  rw [buildEntryResolution] at hbuild
  obtain ⟨allowed, -, hbuild⟩ := FallibleSteps.bind_ok hbuild
  cases hbuild
  obtain ⟨url, -, rfl⟩ := Option.map_eq_some_iff.mp hitem
  exact ⟨allowed, by rw [← applyAllowedToolsFilter_eq]; rfl⟩

theorem tools_rehydrated {owner : String} {item record : Json}
    (h : rehydrated owner item = some record) : record.get? "tools" = item.get? "tools" := by
  rw [rehydrated] at h
  obtain ⟨label, -, h⟩ := Option.bind_eq_some_iff.mp h
  obtain ⟨tools, htools, h⟩ := Option.bind_eq_some_iff.mp h
  obtain ⟨value, hvalue, harr⟩ := Option.bind_eq_some_iff.mp htools
  cases h
  rw [Json.get?_insert_of_ne (by decide), hvalue]
  cases value with
  | arr items =>
    cases harr
    rfl
  | _ => cases harr

theorem findCachedListing_spec {previous : List Json} {label url : String} {owner : Option String}
    {names : Option (List String)} {cached : List Json}
    (h : findCachedListing (some previous) label url owner names = some cached) :
    ∃ asked, names = some asked ∧
      (∃ record ∈ previous, isListingOf label url owner record = true ∧
        record.get? "tools" = some (.arr cached)) ∧
      ∀ name ∈ asked, ∃ tool ∈ cached, strField "name" tool = some name := by
  rw [findCachedListing] at h
  obtain ⟨_, ⟨⟩, h⟩ := Option.bind_eq_some_iff.mp h
  obtain ⟨asked, hasked, h⟩ := Option.bind_eq_some_iff.mp h
  obtain ⟨record, hrecord, h⟩ := Option.bind_eq_some_iff.mp h
  obtain ⟨tools, htools, h⟩ := Option.bind_eq_some_iff.mp h
  split_ifs at h with hall
  cases h
  refine ⟨asked, hasked, ⟨record, mem_reverse.mp (mem_of_find?_eq_some hrecord),
    find?_some hrecord, ?_⟩, ?_⟩
  · obtain ⟨value, hvalue, harr⟩ := Option.bind_eq_some_iff.mp htools
    cases value with
    | arr items =>
      cases harr
      exact hvalue
    | _ => cases harr
  · simpa using hall

/-- What resolving an entry takes from the listing that was found, it takes from the full list. -/
theorem filter_found (hfull : Named full) {earlier later : AllowedTools}
    {names : List String} (hnames : later.names = some names)
    (hcovered : ∀ name ∈ names,
      ∃ tool ∈ (full.filter (isAllowed earlier)).map mcpToolToListToolsEntry,
        strField "name" tool = some name) :
    applyAllowedToolsFilter ((full.filter (isAllowed earlier)).map mcpToolToListToolsEntry) later =
      (applyAllowedToolsFilter full later).map mcpToolToListToolsEntry := by
  have hsub : full.filter (isAllowed earlier) ⊆ full := filter_subset_self _
  rw [applyAllowedToolsFilter_eq, applyAllowedToolsFilter_eq, filter_listed hfull hsub,
    filter_of_covered hfull hnames]
  intro name hname
  obtain ⟨listed, hlisted, hsame⟩ := hcovered name hname
  obtain ⟨tool, htool, rfl⟩ := mem_map.mp hlisted
  refine ⟨tool, htool, ?_⟩
  obtain ⟨own, hown⟩ := Option.isSome_iff_exists.mp (hfull.names tool (hsub htool))
  rw [name_listToolsEntry, toolName, hown] at hsame
  rw [hown]
  exact hsame

/-- Resolving an entry from a stored listing that covers the names its group asks for gives the
function tools, the keys of the tool map and the public item that the full list gives. -/
theorem cached_resolution_eq_fresh {hasQuery : String → Bool} (hfull : Named full)
    {label url : String} {owner : Option String} {previous : List Json}
    (hprevious : ∀ record ∈ previous, isListingOf label url owner record = true →
      ∃ item reader, Stored hasQuery full item ∧ rehydrated reader item = some record)
    {first : Option (List String)} {others : List (Option (List String))} {cached : List Json}
    (hfound : findCachedListing (some previous) label url owner
      (others.foldl mergeAllowedNames first) = some cached)
    {entry : Json} {allowed : AllowedTools} (hallowed : extractAllowedTools entry = .ok allowed)
    (hgroup : allowed.names ∈ first :: others) (toolMap : ToolMap) :
    ∃ reused fresh reusedMap freshMap,
      buildEntryResolution entry (some cached) toolMap = .ok (some (reused, reusedMap)) ∧
      buildEntryResolution entry (some full) toolMap = .ok (some (fresh, freshMap)) ∧
      reused.functionTools = fresh.functionTools ∧ reusedMap.keys = freshMap.keys ∧
      ∀ generated, buildDiscoveryItem generated
          ⟨serverLabel entry, reusableListingServerUrl hasQuery entry, reused.listingTools⟩ =
        buildDiscoveryItem generated
          ⟨serverLabel entry, reusableListingServerUrl hasQuery entry, fresh.listingTools⟩ := by
  obtain ⟨asked, hasked, ⟨record, hrecord, hmatches, htools⟩, hall⟩ :=
    findCachedListing_spec hfound
  obtain ⟨item, reader, hstored, hrehydrated⟩ := hprevious record hrecord hmatches
  obtain ⟨earlier, hearlier⟩ := hstored.tools
  rw [tools_rehydrated hrehydrated, hearlier, Option.some.injEq, Json.arr.injEq] at htools
  subst htools
  obtain ⟨names, hnames, hsub⟩ := names_covered hasked hgroup
  have hfilter := filter_found hfull hnames fun name hname => hall name (hsub hname)
  refine ⟨_, _, _, _, by rw [buildEntryResolution, hallowed]; rfl,
    by rw [buildEntryResolution, hallowed]; rfl, ?_, ?_, fun generated => ?_⟩
  · simp only [hfilter, map_map]
    exact map_congr_left fun tool _ => functionTool_listToolsEntry tool (serverLabel entry)
  · rw [hfilter]
    refine keys_insertTools entry (fun tool htool => ?_) rfl
    rw [applyAllowedToolsFilter_eq] at htool
    exact hfull.names tool (mem_filter.mp htool).1
  · simp only [hfilter, map_map]
    have hidem : mcpToolToListToolsEntry ∘ mcpToolToListToolsEntry = mcpToolToListToolsEntry :=
      funext listToolsEntry_idem
    rw [hidem]

def readTool : Json :=
  .obj [("name", .str "read"), ("description", .str "reads"),
    ("annotations", .obj [("readOnlyHint", .bool true)])]

def writeAndRead : List Json :=
  [.obj [("name", .str "write"), ("inputSchema", .obj [])], readTool]

def entryFor (filter : Json) : Json :=
  .obj [("type", .str "mcp"), ("server_label", .str "files"), ("server_url", .str "https://files"),
    ("allowed_tools", filter)]

def readListing : Json :=
  .obj [("type", .str "praxis_mcp_cached_listing"), ("server_label", .str "files"),
    ("server_url", .str "https://files"), ("tools", .arr [mcpToolToListToolsEntry readTool])]

/-- A later request that names the tool is served from the stored listing. -/
theorem read_tool_reused :
    ∃ reused fresh reusedMap freshMap,
      buildEntryResolution (entryFor (.arr [.str "read"]))
        (some [mcpToolToListToolsEntry readTool]) ∅ = .ok (some (reused, reusedMap)) ∧
      buildEntryResolution (entryFor (.arr [.str "read"])) (some writeAndRead) ∅ =
        .ok (some (fresh, freshMap)) ∧
      reused.functionTools = fresh.functionTools ∧ reusedMap.keys = freshMap.keys := by
  have hnamed : Named writeAndRead := by
    constructor
    · intro tool htool
      simp only [writeAndRead, mem_cons, not_mem_nil, or_false] at htool
      rcases htool with rfl | rfl <;> rfl
    · decide
  have hprevious : ∀ record ∈ (rehydrated "owner" readListing).toList,
      isListingOf "files" "https://files" (some "owner") record = true →
        ∃ item reader, Stored (fun _ => false) writeAndRead item ∧
          rehydrated reader item = some record := by
    intro record hrecord _
    exact ⟨readListing, "owner", ⟨entryFor (.obj [("read_only", .bool true)]), ∅, _, _, "1", rfl,
      rfl⟩, Option.mem_toList.mp hrecord⟩
  have hfound : findCachedListing (some (rehydrated "owner" readListing).toList) "files"
      "https://files" (some "owner") ([].foldl mergeAllowedNames (some ["read"])) =
      some [mcpToolToListToolsEntry readTool] := rfl
  have hallowed : extractAllowedTools (entryFor (.arr [.str "read"])) =
      .ok ⟨some ["read"], none⟩ := rfl
  obtain ⟨reused, fresh, reusedMap, freshMap, hreused, hfresh, htools, hkeys, -⟩ :=
    cached_resolution_eq_fresh hnamed hprevious hfound hallowed mem_cons_self ∅
  exact ⟨reused, fresh, reusedMap, freshMap, hreused, hfresh, htools, hkeys⟩

end Reuse

end CachedListings
