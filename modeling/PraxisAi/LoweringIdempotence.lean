import PraxisAi.LoweringFailures
import PraxisAi.LoweringRoundTrip

/-! # Lowering a request again

A request comes back to the filter on every round of its exchange. What has been lowered once has
no rich tool left, no call to retype and no search to read tools from, so a second lowering finds
nothing to do. -/
namespace LoweringIdempotence

open List
open JsonValues KeyedMaps ResponseState ClientToolPlans ClientToolLowering ClientToolHistory
open ClientToolRequests NameRegistries FallibleSteps LoweringLedger LoweringFailures
open LoweringRoundTrip

/-! ## History -/

section History

variable {ids : List String} {item out : Json} {messages lowered : List Json}

/-- A call that the client runs and that is named in the history by its own type. -/
def GatedCall (item : Json) : Prop :=
  (itemType item = some "shell_call" ∨ itemType item = some "tool_search_call") ∧
    isClientExecutedToolCall item = true

structure SettledItem (item : Json) : Prop where
  kept : lowerHistoryItem [] item = none
  supported : isUnsupportedHistoryItem item = false
  ungated : ¬GatedCall item

theorem settled_functionOutput (h : itemType item = some "function_call_output") :
    SettledItem item := by
  refine ⟨by simp [lowerHistoryItem, h], by simp [isUnsupportedHistoryItem, h], ?_⟩
  rintro ⟨htype, -⟩
  simp [h] at htype

theorem settled_functionCall (h : itemType item = some "function_call")
    (hns : nonEmpty "namespace" item = none) : SettledItem item := by
  refine ⟨by simp [lowerHistoryItem, h, hns], by simp [isUnsupportedHistoryItem, h], ?_⟩
  rintro ⟨htype, -⟩
  simp [h] at htype

theorem settled_dressed {source name : Json} {arguments : String}
    (h : Dressed (functionCall source name arguments) item) : SettledItem item := by
  obtain ⟨htype, -, hns, -⟩ := h.read
  refine settled_functionCall htype ?_
  rw [nonEmpty, strField, hns]
  rfl

theorem settled_of_kept (hsupported : isUnsupportedHistoryItem item = false)
    (h : lowerHistoryItem ids item = none) : SettledItem item := by
  refine ⟨?_, hsupported, ?_⟩
  · rw [lowerHistoryItem] at h ⊢
    split at h
    all_goals simp_all [outputCallWasLowered]
  · rintro ⟨htype | htype, hclient⟩
    · simp [lowerHistoryItem, htype, hclient] at h
    · simp [lowerHistoryItem, htype, hclient] at h

theorem settled_callOutput (payload : Option Json) :
    SettledItem (callOutputToFunctionOutput item payload) := by
  apply settled_functionOutput
  unfold callOutputToFunctionOutput
  rw [type_carryCaller, type_applyMessageStatus, type_applyItemId]
  rfl

theorem settled_of_lowered (hkeys : UniqueKeys item) (h : lowerHistoryItem ids item = some out) :
    SettledItem out := by
  rw [lowerHistoryItem] at h
  split at h
  · cases h
    rw [customCallToFunctionCall]
    exact settled_dressed
      (dressed_caller (dressed_status (dressed_functionCallItemId (dressed_refl _) _) _) _)
  · rename_i htype
    cases h
    obtain ⟨fields, rfl⟩ := isObject_of_type htype
    have htyped : TypedAs "function_call_output"
        ((Json.obj fields).insert "type" (.str "function_call_output")) :=
      ⟨hkeys.insert _ _, congrArg (·.bind Json.asStr) (Json.get?_insert _ _ _)⟩
    exact settled_functionOutput (htyped.remove (by decide)).type
  · split at h
    · cases h
      rw [shellCallToFunctionCall]
      exact settled_dressed
        (dressed_caller (dressed_status (dressed_functionCallItemId (dressed_refl _) _) _) _)
    · cases h
  · split at h
    · cases h
      exact settled_callOutput _
    · cases h
  · split at h
    · cases h
      rw [toolSearchCallToFunctionCall]
      exact settled_dressed (dressed_status (dressed_itemId (dressed_refl _) _) _)
    · cases h
  · split at h
    · cases h
      exact settled_callOutput _
    · cases h
  · rename_i htype
    obtain ⟨ns, -, rfl⟩ := Option.map_eq_some_iff.mp h
    have htyped : TypedAs "function_call" item := ⟨hkeys, htype⟩
    have hrenamed := htyped.insert (show "type" ≠ "name" by decide)
      (.str (namespaceMemberName ns ((strField "name" item).getD "")))
    refine settled_functionCall (hrenamed.remove (by decide)).type ?_
    rw [nonEmpty, strField, flattenNamespacedHistoryCall, hrenamed.keys.get?_remove_self]
    rfl
  · cases h

theorem settled_of_ok {changed : Bool} (hkeys : ∀ item ∈ messages, UniqueKeys item)
    (h : lowerHistoryItems messages = .ok (lowered, changed)) :
    ∀ item ∈ lowered, SettledItem item := by
  have hsupported := (lowerHistoryItems_ok h).1
  obtain ⟨-, -, h⟩ := bind_ok h
  cases h
  intro out hout
  obtain ⟨item, hitem, rfl⟩ := mem_map.mp hout
  cases hlowered : lowerHistoryItem (clientExecutedCallIds messages) item with
  | none =>
    refine settled_of_kept ?_ hlowered
    simpa using any_eq_false.mp hsupported item hitem
  | some out => exact settled_of_lowered (hkeys item hitem) hlowered

theorem clientExecutedCallIds_settled (h : ∀ item ∈ messages, SettledItem item) :
    clientExecutedCallIds messages = [] := by
  apply filterMap_eq_nil_iff.mpr
  intro item hitem
  exact if_neg (h item hitem).ungated

theorem lowerHistoryItems_settled (h : ∀ item ∈ messages, SettledItem item) :
    lowerHistoryItems messages = .ok (messages, false) := by
  have hsupported : ¬messages.any isUnsupportedHistoryItem = true := by
    intro hany
    obtain ⟨item, hitem, hunsupported⟩ := any_eq_true.mp hany
    rw [(h item hitem).supported] at hunsupported
    cases hunsupported
  have hneeds : needsLowering messages = false := by
    rw [needsLowering, clientExecutedCallIds_settled h]
    apply any_eq_false.mpr
    intro item hitem
    rw [(h item hitem).kept]
    exact Bool.false_ne_true
  have hmap : messages.map (fun item =>
      (lowerHistoryItem (clientExecutedCallIds messages) item).getD item) = messages :=
    (lowered_eq_iff _).mpr hneeds
  rw [lowerHistoryItems, rejectUnsupportedHistoryItems, if_neg hsupported]
  show Except.ok (messages.map (fun item =>
    (lowerHistoryItem (clientExecutedCallIds messages) item).getD item), needsLowering messages) =
      .ok (messages, false)
  rw [hmap, hneeds]

theorem collectDiscoveredTools_settled (same : Json → Json → Bool)
    (h : ∀ item ∈ messages, SettledItem item) :
    collectDiscoveredTools same messages = .ok [] := by
  rw [collectDiscoveredTools, clientExecutedCallIds_settled h]
  have hstep : ∀ found item, collectFromItem same [] found item = .ok found := by
    intro found item
    refine if_neg ?_
    rintro ⟨-, hlowered⟩
    simp [outputCallWasLowered] at hlowered
  have hrun : ∀ (items : List Json) (found : Discoveries),
      items.foldlM (collectFromItem same []) found = .ok found := by
    intro items
    induction items with
    | nil => exact fun _ => rfl
    | cons item items ih =>
      intro found
      rw [foldlM_cons, hstep]
      exact ih found
  rw [hrun]
  rfl

end History

/-! ## Tools -/

section Tools

variable {tool member : Json} {ns : NamespaceContext} {source : LoweringSource} {e : ToolEntry}

theorem plain_of_function (h : itemType tool = some "function") :
    isRichClientTool tool = false := by
  simp [isRichClientTool, h]

theorem type_sanitized {descriptor : String} {function : Json}
    (h : sanitizeBackendFunction member descriptor = .ok function) :
    itemType function = some "function" := by
  obtain ⟨-, -, h⟩ := bind_ok h
  split at h
  · cases h
    rfl
  · cases h
    rfl
  · cases h
    rfl
  · cases h

theorem plain_custom (he : e ∈ customEntries tool) : isRichClientTool e.declaration = false := by
  rw [customEntries] at he
  split at he
  · cases he
  · rw [mem_singleton.mp he]
    rfl

theorem plain_shell (he : e ∈ shellEntries tool) : isRichClientTool e.declaration = false := by
  rw [shellEntries] at he
  split at he
  · cases he
  · rw [mem_singleton.mp he]
    rfl

theorem plain_toolSearch (he : e ∈ toolSearchEntries tool) :
    isRichClientTool e.declaration = false := by
  rw [mem_singleton.mp he]
  rfl

theorem plain_member (he : e ∈ memberEntries source ns member) :
    isRichClientTool e.declaration = false := by
  rw [memberEntries] at he
  split at he
  · cases he
  · split at he
    · rw [functionMemberEntries] at he
      split at he
      · cases he
      · split at he
        · cases he
        · rename_i function hfunction
          rw [mem_singleton.mp he]
          apply plain_of_function
          obtain ⟨fields, rfl⟩ := isObject_of_type (type_sanitized hfunction)
          rw [namespaceMemberFunction, itemType, strField, Json.get?_insert_of_ne (by decide),
            Json.get?_insert_of_ne (by decide)]
          exact congrArg (·.bind Json.asStr) (Json.get?_insert _ _ _)
    · rw [customMemberEntries] at he
      split at he
      · cases he
      · rw [mem_singleton.mp he]
        rfl
    · cases he

theorem plain_namespace (he : e ∈ namespaceEntries source tool) :
    isRichClientTool e.declaration = false := by
  rw [namespaceEntries] at he
  split at he
  · cases he
  · obtain ⟨member, -, he⟩ := mem_flatMap.mp he
    exact plain_member he

theorem plain_declared (he : e ∈ declaredEntries tool) :
    isRichClientTool e.declaration = false := by
  rw [declaredEntries] at he
  split at he
  · cases he
  · split at he
    · exact plain_custom he
    · exact plain_namespace he
    · cases he
    · rename_i htype
      rw [mem_singleton.mp he]
      exact plain_of_function htype
    · rename_i htype
      split at he
      · exact plain_shell he
      · rename_i hremote
        rw [mem_singleton.mp he]
        simp [isRichClientTool, htype, hremote]
    · rename_i htype
      split at he
      · exact plain_toolSearch he
      · rename_i hserver
        rw [mem_singleton.mp he]
        simp [isRichClientTool, htype, hserver]
    · rw [mem_singleton.mp he, isRichClientTool]
      split
      all_goals first | contradiction | rfl

theorem plain_discovered (he : e ∈ discoveredEntries tool) :
    isRichClientTool e.declaration = false := by
  rw [discoveredEntries] at he
  split at he
  · exact plain_custom he
  · exact plain_namespace he
  · rw [discoveredFunctionEntries] at he
    split at he
    · cases he
    · split at he
      · cases he
      · rename_i sanitized hsanitized
        rw [mem_singleton.mp he]
        exact plain_of_function (type_sanitized hsanitized)
  · split at he
    · exact plain_shell he
    · cases he
  · split at he
    · exact plain_toolSearch he
    · cases he
  · cases he

end Tools

/-! ## Requests -/

section Requests

variable {same : Json → Json → Bool} {measure : RequestState → Except String ℕ} {limits : Limits}
  {streaming armed : Bool} {s s' : RequestState}

structure SettledRequest (s : RequestState) : Prop where
  wellFormed : hasMalformedTools s = false
  plain : requestHasRichClientTool s = false
  history : ∀ item ∈ s.messages, SettledItem item

theorem SettledRequest.lowerRequest (h : SettledRequest s) :
    ClientToolRequests.lowerRequest same measure limits streaming armed s = (.ok (), s) := by
  have hmalformed : ¬hasMalformedTools s = true := by
    rw [h.wellFormed]
    exact Bool.false_ne_true
  rw [ClientToolRequests.lowerRequest, if_neg hmalformed,
    collectDiscoveredTools_settled same h.history]
  simp only [h.plain]
  rw [if_neg (by simp), if_pos (by simp), lowerHistoryOnly, lowerHistoryItems_settled h.history]
  rfl

theorem SettledRequest.of_tools {tools : List Json}
    (htools : s.requestBody.asObj.isSome = true → requestTools s = some tools)
    (hplain : ∀ tool ∈ tools, isRichClientTool tool = false)
    (hhistory : ∀ item ∈ s.messages, SettledItem item) : SettledRequest s := by
  cases hbody : s.requestBody with
  | obj fields =>
    have hfound := htools (by rw [hbody]; rfl)
    refine ⟨?_, ?_, hhistory⟩
    · rw [requestTools] at hfound
      obtain ⟨value, hvalue, harr⟩ := Option.bind_eq_some_iff.mp hfound
      rw [hasMalformedTools, hvalue, Option.any_some, harr]
      simp
    · rw [requestHasRichClientTool, hfound, Option.any_some]
      apply any_eq_false.mpr
      intro tool htool
      rw [hplain tool htool]
      exact Bool.false_ne_true
  | _ => exact ⟨by simp [hasMalformedTools, hbody, Json.get?],
      by simp [requestHasRichClientTool, requestTools, hbody, Json.get?], hhistory⟩

theorem lowerHistoryOnly_settled (hkeys : ∀ item ∈ s.messages, UniqueKeys item)
    (h : lowerHistoryOnly measure limits s = (.ok (), s')) :
    s'.requestBody = s.requestBody ∧ ∀ item ∈ s'.messages, SettledItem item := by
  refine ⟨(lowerHistoryOnly_ok h).2, ?_⟩
  rw [lowerHistoryOnly] at h
  split at h
  · cases h
  · rename_i messages changed hlowered
    have hsettled := settled_of_ok hkeys hlowered
    split at h
    · split at h
      · cases h
      · cases h
        exact hsettled
    · cases h
      exact hsettled

theorem captureCanonicalEcho_messages (s : RequestState) (tools : List Json) (choice : Json) :
    (captureCanonicalEcho s tools choice).messages = s.messages := by
  rw [captureCanonicalEcho]
  split <;> rfl

theorem commitLowering_settled {L : Lowering} {originalTools : List Json}
    (hplain : ∀ tool ∈ L.lowered, isRichClientTool tool = false)
    (hkeys : ∀ item ∈ s.messages, UniqueKeys item)
    (h : commitLowering measure limits s L originalTools = (.ok (), s')) : SettledRequest s' := by
  rw [commitLowering] at h
  dsimp only at h
  split at h
  · cases h
  · split at h
    · cases h
    · rename_i messages changed hlowered
      split at h
      · cases h
      · rename_i s₁ hcap
        cases h
        rw [enforceRewriteCap] at hcap
        split at hcap
        · cases hcap
        · cases hcap
          refine SettledRequest.of_tools ?_ hplain ?_
          · rw [markRequestBodyForRebuild, requestTools]
            dsimp only
            rw [(captureCanonicalEcho_same _ _ _).2]
            intro hobj
            exact rewriteBody_tools hobj
          · rw [markRequestBodyForRebuild]
            dsimp only
            rw [captureCanonicalEcho_messages]
            exact settled_of_ok hkeys hlowered

theorem takeOriginalTools_messages (s : RequestState) :
    (takeOriginalTools s).2.messages = s.messages := by
  rw [takeOriginalTools]
  cases s.clientToolEcho with
  | some echo => rfl
  | none =>
    simp only [takeRequestTools]
    cases requestTools s with
    | some tools => rfl
    | none => rfl

theorem lowerDeclaredAndDiscovered_settled {discovered : List Json}
    (hkeys : ∀ item ∈ s.messages, UniqueKeys item)
    (h : lowerDeclaredAndDiscovered measure limits s discovered = (.ok (), s')) :
    SettledRequest s' := by
  have hmessages := takeOriginalTools_messages s
  rw [lowerDeclaredAndDiscovered] at h
  generalize takeOriginalTools s = taken at hmessages h
  obtain ⟨tools, s₁⟩ := taken
  dsimp only at hmessages h
  rw [← hmessages] at hkeys
  split at h
  · cases h
  · rename_i L hL
    obtain ⟨hrep, hkept⟩ := lowerTools_ok hL
    have hdeclared : ∀ tool ∈ L.lowered, isRichClientTool tool = false := by
      intro tool htool
      rw [hrep.lowered] at htool
      obtain ⟨e, he, rfl⟩ := mem_map.mp htool
      obtain ⟨declared, -, he⟩ := mem_flatMap.mp he
      exact plain_declared he
    split at h
    · rename_i hidle
      rw [Bool.not_eq_true', List.isEmpty_iff] at hidle
      rw [finishWithoutLoweredOrDiscovered] at h
      split at h
      · exact commitLowering_settled hdeclared hkeys h
      · -- every tool went through as it is, so none of them is rich
        rename_i hwithheld
        have hall : L.lowered = tools := by
          rcases hkept with (hany | hany) | hall
          · rw [hidle.1] at hany
            cases hany
          · exact absurd hany hwithheld
          · exact hall
        obtain ⟨hbody, hhistory⟩ := @lowerHistoryOnly_settled measure limits
          (restoreTools s₁ tools) s' hkeys h
        refine SettledRequest.of_tools ?_ (hall ▸ hdeclared) hhistory
        rw [requestTools, hbody, restoreTools, RequestState.withBody_requestBody]
        intro hobj
        rw [isSome_asObj_insert] at hobj
        exact requestTools_insert_tools hobj tools
    · split at h
      · cases h
      · rename_i L' hL'
        refine commitLowering_settled ?_ hkeys h
        intro tool htool
        rw [(lowerDiscoveredTools_ok hrep hL').lowered] at htool
        obtain ⟨e, he, rfl⟩ := mem_map.mp htool
        rcases mem_append.mp he with he | he
        · obtain ⟨declared, -, he⟩ := mem_flatMap.mp he
          exact plain_declared he
        · obtain ⟨found, -, he⟩ := mem_flatMap.mp he
          exact plain_discovered he

theorem lowerRequest_settled (hkeys : ∀ item ∈ s.messages, UniqueKeys item)
    (h : lowerRequest same measure limits streaming armed s = (.ok (), s')) :
    SettledRequest s' := by
  rw [lowerRequest] at h
  split at h
  · cases h
  · rename_i hmalformed
    dsimp only at h
    split at h
    · cases h
    · split at h
      · cases h
      · split at h
        · rename_i hnative
          obtain ⟨hbody, hhistory⟩ := lowerHistoryOnly_settled hkeys h
          refine ⟨?_, ?_, hhistory⟩
          · rw [hasMalformedTools, hbody]
            exact Bool.eq_false_iff.mpr hmalformed
          · rw [requestHasRichClientTool, requestTools, hbody]
            exact (show requestHasRichClientTool s = false by simpa using hnative.1)
        · exact lowerDeclaredAndDiscovered_settled hkeys h

/-- A request that has been lowered is lowered again without any change. -/
theorem lowering_idempotent (hkeys : ∀ item ∈ s.messages, UniqueKeys item)
    (h : lowerRequest same measure limits streaming armed s = (.ok (), s')) :
    lowerRequest same measure limits streaming armed s' = (.ok (), s') :=
  (lowerRequest_settled hkeys h).lowerRequest

def shellExchange : RequestState :=
  { withTools [localShell] with
    messages := [.obj [("type", .str "shell_call"), ("call_id", .str "c"),
      ("environment", .obj [("type", .str "local")])]] }

theorem lowering_idempotent_shell :
    (lowerSample shellExchange).1 = .ok () ∧
      ((requestTools (lowerSample shellExchange).2).getD []).map itemType = [some "function"] ∧
      lowerSample (lowerSample shellExchange).2 = (.ok (), (lowerSample shellExchange).2) := by
  refine ⟨rfl, by decide +kernel, lowering_idempotent (s := shellExchange) ?_ rfl⟩
  intro item hitem
  rw [mem_singleton.mp hitem]
  exact (show (["type", "call_id", "environment"] : List String).Nodup by decide)

end Requests

end LoweringIdempotence
