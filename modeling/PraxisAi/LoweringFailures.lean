import PraxisAi.LoweringLedger

/-! # Requests that are refused

A refused request gets its tools and its choice back. The body is then what it was only if it had
the array of tools that is put back, and if it did not say null for its choice; a history that was
lowered before the body was found too large stays lowered. -/
namespace LoweringFailures

open JsonValues KeyedMaps ResponseState ClientToolPlans ClientToolLowering ClientToolHistory
  ClientToolRequests LoweringLedger

section Fields

variable {key other : String} {value old : Json} {fields : List (String × Json)} {j : Json}

theorem insert_eq_self : j.insert key value = j ↔ j.asObj = none ∨ j.get? key = some value := by
  cases j with
  | obj fields =>
    rw [Json.insert, Json.obj.injEq, Json.setField_eq_self]
    simp [Json.asObj, Json.get?]
  | _ => simp [Json.insert, Json.asObj]

theorem insert_insert : (j.insert key old).insert key value = j.insert key value := by
  cases j with
  | obj fields => exact congrArg Json.obj Json.setField_setField
  | _ => rfl

theorem insert_comm (hne : key ≠ other) (h : j.get? key ≠ none) :
    (j.insert other old).insert key value = (j.insert key value).insert other old := by
  cases j with
  | obj fields => exact congrArg Json.obj (Json.setField_comm hne h)
  | _ => rfl

def keyCount (key : String) (fields : List (String × Json)) : ℕ :=
  fields.countP fun field => field.1 == key

theorem keyCount_setField (hne : key ≠ other) :
    keyCount key (Json.setField other value fields) = keyCount key fields := by
  induction fields with
  | nil => simp [Json.setField, keyCount, Ne.symm hne]
  | cons field rest ih =>
    obtain ⟨k, v⟩ := field
    rw [Json.setField]
    split
    · rfl
    · rw [keyCount, keyCount, List.countP_cons, List.countP_cons]
      exact congrArg (· + _) ih

theorem keyCount_removeField (h : fields.lookup key ≠ none) :
    keyCount key (removeField key fields) + 1 = keyCount key fields := by
  rcases removeField_cases key fields with ⟨hnone, -⟩ | ⟨front, value, rest, rfl, hperm⟩
  · exact absurd hnone h
  · rw [keyCount, keyCount, hperm.countP_eq, List.countP_append, List.countP_append,
      List.countP_cons, if_pos (beq_self_eq_true key), Nat.add_assoc]

theorem remove_insert_ne (h : j.get? key ≠ none) (hne : key ≠ other) :
    remove (j.insert other value) key ≠ j := by
  cases j with
  | obj fields =>
    intro heq
    have hcount := congrArg (keyCount key) (Json.obj.inj heq)
    have hpresent : (Json.setField other value fields).lookup key ≠ none := by
      rw [Json.lookup_setField_of_ne hne]
      exact h
    have hremoved := keyCount_removeField hpresent
    rw [keyCount_setField hne] at hremoved
    omega
  | _ => exact absurd rfl h

theorem remove_of_absent (h : j.get? key = none) : remove j key = j := by
  cases j with
  | obj fields =>
    rcases removeField_cases key fields with ⟨-, heq⟩ | ⟨front, value, rest, rfl, -⟩
    · exact congrArg Json.obj heq
    · have hne := List.lookup_eq_none_iff.mp h (key, value) (by simp)
      exact absurd rfl (bne_iff_ne.mp hne)
  | _ => rfl

end Fields

section History

variable {ids : List String} {item out : Json} {messages : List Json}

theorem type_ne (other : String) {kind : String} (h : itemType item = some kind)
    (h' : itemType out = some other) (hne : other ≠ kind) : out ≠ item := by
  rintro rfl
  rw [h] at h'
  exact hne (Option.some.inj h').symm

theorem type_carryCaller (out source : Json) :
    itemType (carryCaller out source) = itemType out := by
  rw [carryCaller]
  split
  · rw [itemType, itemType, strField, strField, Json.get?_insert_of_ne (by decide)]
  · rfl

theorem type_applyMessageStatus (out source : Json) :
    itemType (applyMessageStatus out source) = itemType out := by
  rw [applyMessageStatus]
  split
  · split
    · rw [itemType, itemType, strField, strField, Json.get?_insert_of_ne (by decide)]
    · rfl
  · rfl

theorem type_applyFunctionCallItemId (out source : Json) :
    itemType (applyFunctionCallItemId out source) = itemType out := by
  rw [applyFunctionCallItemId]
  split
  · rw [itemType, itemType, strField, strField, Json.get?_insert_of_ne (by decide)]
  · rfl

theorem type_applyItemId (out source : Json) :
    itemType (applyItemId out source) = itemType out := by
  rw [applyItemId]
  split
  · rw [itemType, itemType, strField, strField, Json.get?_insert_of_ne (by decide)]
  · rfl

theorem lowerCustomOutput_ne (h : itemType item = some "custom_tool_call_output") :
    lowerCustomOutput item ≠ item := by
  rw [lowerCustomOutput]
  by_cases hname : item.get? "name" = none
  · rw [remove_of_absent (by rw [Json.get?_insert_of_ne (by decide), hname])]
    obtain ⟨fields, rfl⟩ := isObject_of_type h
    refine type_ne "function_call_output" h ?_ (by decide)
    exact congrArg (·.bind Json.asStr) (Json.get?_insert _ _ _)
  · exact remove_insert_ne hname (by decide)

theorem callOutput_ne {kind : String} (h : itemType item = some kind)
    (hne : "function_call_output" ≠ kind) (payload : Option Json) :
    callOutputToFunctionOutput item payload ≠ item := by
  refine type_ne "function_call_output" h ?_ hne
  unfold callOutputToFunctionOutput
  rw [type_carryCaller, type_applyMessageStatus, type_applyItemId]
  rfl

theorem lowerHistoryItem_ne (h : lowerHistoryItem ids item = some out) : out ≠ item := by
  rw [lowerHistoryItem] at h
  split at h
  · rename_i htype
    cases h
    refine type_ne "function_call" htype ?_ (by decide)
    rw [customCallToFunctionCall, type_carryCaller, type_applyMessageStatus,
      type_applyFunctionCallItemId]
    rfl
  · rename_i htype
    cases h
    exact lowerCustomOutput_ne htype
  · rename_i htype
    split at h
    · cases h
      refine type_ne "function_call" htype ?_ (by decide)
      rw [shellCallToFunctionCall, type_carryCaller, type_applyMessageStatus,
        type_applyFunctionCallItemId]
      rfl
    · cases h
  · rename_i htype
    split at h
    · cases h
      exact callOutput_ne htype (by decide) _
    · cases h
  · rename_i htype
    split at h
    · cases h
      refine type_ne "function_call" htype ?_ (by decide)
      rw [toolSearchCallToFunctionCall, type_applyMessageStatus, type_applyItemId]
      rfl
    · cases h
  · rename_i htype
    split at h
    · cases h
      exact callOutput_ne htype (by decide) _
    · cases h
  · obtain ⟨ns, hns, rfl⟩ := Option.map_eq_some_iff.mp h
    refine remove_insert_ne (fun hnone => ?_) (by decide)
    rw [nonEmpty, strField, hnone] at hns
    cases hns
  · cases h

/-- A lowered history is the one that was sent exactly if no item of it needs lowering. -/
theorem lowered_eq_iff (ids : List String) :
    messages.map (fun item => (lowerHistoryItem ids item).getD item) = messages ↔
      (messages.any fun item => (lowerHistoryItem ids item).isSome) = false := by
  induction messages with
  | nil => simp
  | cons item rest ih =>
    rw [List.map_cons, List.cons.injEq, ih, List.any_cons, Bool.or_eq_false_iff]
    refine and_congr_left fun _ => ?_
    rcases hitem : lowerHistoryItem ids item with _ | out
    · simp
    · simpa using lowerHistoryItem_ne hitem

theorem lowerHistoryItems_error {rejection : Rejection}
    (h : lowerHistoryItems messages = .error rejection) :
    messages.any isUnsupportedHistoryItem = true := by
  rw [lowerHistoryItems, rejectUnsupportedHistoryItems] at h
  split at h
  · assumption
  · cases h

theorem lowerHistoryItems_ok {lowered : List Json} {changed : Bool}
    (h : lowerHistoryItems messages = .ok (lowered, changed)) :
    messages.any isUnsupportedHistoryItem = false ∧ changed = needsLowering messages ∧
      (lowered = messages ↔ needsLowering messages = false) := by
  rw [lowerHistoryItems, rejectUnsupportedHistoryItems] at h
  split at h
  · cases h
  · rename_i hsupported
    cases h
    exact ⟨Bool.eq_false_iff.mpr hsupported, rfl, lowered_eq_iff _⟩

end History

section Requests

variable {same : Json → Json → Bool} {measure : RequestState → Except String ℕ} {limits : Limits}
  {streaming armed : Bool} {s s' : RequestState} {rejection : Rejection}

/-- The history is refused, or there is nothing in it to lower. -/
def HistoryKept (s : RequestState) : Prop :=
  s.messages.any isUnsupportedHistoryItem = true ∨ needsLowering s.messages = false

/-- The body has the array of tools that is put back, or is no object. -/
def ToolsKept (s : RequestState) : Prop :=
  s.requestBody.asObj = none ∨
    s.requestBody.get? "tools" = some (.arr (takeOriginalTools s).1)

/-- The choice is not an explicit null, which would be left out. -/
def ChoiceKept (s : RequestState) : Prop := s.requestBody.get? "tool_choice" ≠ some .null

def KeptOnCommit (s : RequestState) (L : Lowering) : Prop :=
  match lowerToolChoice (intoParts L) (requestToolChoice s) with
  | .error _ => True
  | .ok _ => ChoiceKept s ∧ HistoryKept s

/-- What is kept once a tool is to be lowered: as far as the request comes. -/
def KeptOnLowering (limits : Limits) (s : RequestState) (discovered : List Json) : Prop :=
  ToolsKept s ∧
    match lowerTools limits.maxClientTools (takeOriginalTools s).1 Lowering.new with
    | .error _ => True
    | .ok L =>
      if !L.loweredAny ∧ discovered.isEmpty then
        if L.withheldAny then KeptOnCommit s L else HistoryKept s
      else
        match lowerDiscoveredTools limits.maxClientTools discovered L with
        | .error _ => True
        | .ok L => KeptOnCommit s L

/-- A request that is as it was when it is refused. -/
def Kept (same : Json → Json → Bool) (limits : Limits) (streaming armed : Bool)
    (s : RequestState) : Prop :=
  if hasMalformedTools s then True
  else
    match collectDiscoveredTools same s.messages with
    | .error _ => True
    | .ok discovered =>
      if streaming ∧ (requestHasRichClientTool s ∨ !discovered.isEmpty) ∧ !armed then True
      else if !requestHasRichClientTool s ∧ discovered.isEmpty then HistoryKept s
      else KeptOnLowering limits s discovered

theorem withBody_withMessages_eq {body : Json} {messages : List Json} :
    (s.withBody body).withMessages messages = s ↔
      body = s.requestBody ∧ messages = s.messages := by
  constructor
  · intro h
    exact ⟨congrArg RequestState.requestBody h, congrArg (·.messages) h⟩
  · rintro ⟨rfl, rfl⟩
    rfl

theorem withBody_eq {body : Json} : s.withBody body = s ↔ body = s.requestBody := by
  constructor
  · intro h
    exact congrArg RequestState.requestBody h
  · rintro rfl
    rfl

theorem lowerHistoryOnly_error
    (h : lowerHistoryOnly measure limits s = (.error rejection, s')) :
    ∃ messages, s' = s.withMessages messages ∧ (messages = s.messages ↔ HistoryKept s) := by
  rw [lowerHistoryOnly] at h
  split at h
  · rename_i hhistory
    cases h
    exact ⟨s.messages, rfl, iff_of_true rfl (.inl (lowerHistoryItems_error hhistory))⟩
  · rename_i messages changed hhistory
    obtain ⟨hsupported, hchanged, hsame⟩ := lowerHistoryItems_ok hhistory
    split at h
    · split at h
      · cases h
        refine ⟨messages, rfl, hsame.trans ?_⟩
        rw [HistoryKept, hsupported]
        simp
      · cases h
    · cases h

structure Taken (s : RequestState) (body : Json) : Prop where
  tools : ∀ value, body.insert "tools" value = s.requestBody.insert "tools" value
  choice : body.get? "tool_choice" = s.requestBody.get? "tool_choice"

theorem takeOriginalTools_taken (s : RequestState) :
    ∃ body, (takeOriginalTools s).2 = s.withBody body ∧ Taken s body := by
  have hsame : ∃ body, s = s.withBody body ∧ Taken s body :=
    ⟨s.requestBody, rfl, fun _ => rfl, rfl⟩
  rw [takeOriginalTools]
  split
  · exact hsame
  · dsimp only
    rw [takeRequestTools]
    split
    · exact ⟨_, rfl, fun _ => insert_insert, Json.get?_insert_of_ne (by decide) _ _⟩
    · exact hsame

variable {body : Json} {tools : List Json}

theorem restoreTools_taken (h : Taken s body) (tools : List Json) :
    restoreTools (s.withBody body) tools =
      s.withBody (s.requestBody.insert "tools" (.arr tools)) :=
  congrArg s.withBody (h.tools _)

theorem isNull_getD {value : Option Json} (h : isNull (value.getD .null) = true) :
    value = none ∨ value = some .null := by
  rcases value with _ | value
  · exact .inl rfl
  · cases value <;> cases h
    exact .inr rfl

def restoredBody (body : Json) (lowered tools : List Json) (choice loweredChoice : Json) : Json :=
  let rewritten := body.insert "tools" (.arr lowered)
  if isNull choice then remove (rewritten.insert "tools" (.arr tools)) "tool_choice"
  else ((rewritten.insert "tool_choice" loweredChoice).insert "tools" (.arr tools)).insert
    "tool_choice" choice

theorem restore_rewritten (lowered tools messages : List Json) (choice loweredChoice : Json) :
    restoreRequestToolsAndChoice
        ((rewriteBody (s.withBody body) lowered choice loweredChoice).withMessages messages)
        tools choice =
      (s.withBody (restoredBody body lowered tools choice loweredChoice)).withMessages
        messages := by
  rw [restoredBody, restoreRequestToolsAndChoice, rewriteBody]
  by_cases hnull : isNull choice
  · simp only [if_pos hnull]
    rfl
  · simp only [if_neg hnull]
    rfl

theorem restoredBody_eq (h : Taken s body) (lowered tools : List Json) (loweredChoice : Json) :
    restoredBody body lowered tools (requestToolChoice (s.withBody body)) loweredChoice =
        s.requestBody ↔
      s.requestBody.insert "tools" (.arr tools) = s.requestBody ∧ ChoiceKept s := by
  have hchoice : requestToolChoice (s.withBody body) =
      (s.requestBody.get? "tool_choice").getD .null := congrArg (·.getD .null) h.choice
  rw [hchoice, restoredBody]
  split
  · rename_i hnull
    rw [insert_insert, h.tools]
    rcases isNull_getD hnull with hnone | hnull
    · rw [remove_of_absent (by rw [Json.get?_insert_of_ne (by decide), hnone]), ChoiceKept, hnone]
      simp
    · have hpresent : s.requestBody.get? "tool_choice" ≠ none := by
        rw [hnull]
        exact Option.some_ne_none _
      rw [ChoiceKept, hnull]
      simpa using remove_insert_ne hpresent (by decide)
  · rename_i hnull
    rcases hget : s.requestBody.get? "tool_choice" with _ | choice
    · rw [hget] at hnull
      exact absurd rfl hnull
    · rw [hget, Option.getD_some] at hnull
      have hpresent : (body.insert "tools" (.arr lowered)).get? "tool_choice" ≠ none := by
        rw [Json.get?_insert_of_ne (by decide), h.choice, hget]
        exact Option.some_ne_none _
      rw [Option.getD_some, ← insert_comm (by decide) hpresent, insert_insert, insert_insert,
        h.tools, insert_eq_self.mpr (.inr (by rw [Json.get?_insert_of_ne (by decide), hget])),
        ChoiceKept, hget]
      refine (and_iff_left fun heq => hnull ?_).symm
      rw [Option.some.inj heq]
      rfl

theorem toolsKept_iff : ToolsKept s ↔
    s.requestBody.insert "tools" (.arr (takeOriginalTools s).1) = s.requestBody :=
  insert_eq_self.symm

theorem restoreTools_eq (h : Taken s body) :
    restoreTools (s.withBody body) (takeOriginalTools s).1 = s ↔ ToolsKept s := by
  rw [restoreTools_taken h, toolsKept_iff, withBody_eq]

theorem commitLowering_error {L : Lowering} (htaken : Taken s body)
    (h : commitLowering measure limits (s.withBody body) L (takeOriginalTools s).1 =
      (.error rejection, s')) : s' = s ↔ ToolsKept s ∧ KeptOnCommit s L := by
  have hchoice : requestToolChoice (s.withBody body) = requestToolChoice s :=
    congrArg (·.getD .null) htaken.choice
  rw [commitLowering] at h
  dsimp only at h
  split at h
  · rename_i hrejected
    cases h
    rw [KeptOnCommit, ← hchoice, hrejected, restoreTools_eq htaken]
    simp
  · rename_i loweredChoice haccepted
    rw [KeptOnCommit, ← hchoice, haccepted, toolsKept_iff]
    dsimp only
    rw [← and_assoc, ← restoredBody_eq htaken L.lowered _ loweredChoice]
    split at h
    · rename_i hhistory
      cases h
      have hrestored := @restore_rewritten s body L.lowered (takeOriginalTools s).1 s.messages
        (requestToolChoice (s.withBody body)) loweredChoice
      refine (Eq.congr_left hrestored).trans ?_
      rw [withBody_withMessages_eq]
      exact and_congr_right fun _ => iff_of_true rfl (.inl (lowerHistoryItems_error hhistory))
    · rename_i messages changed hhistory
      obtain ⟨hsupported, -, hsame⟩ := lowerHistoryItems_ok hhistory
      split at h
      · rename_i hcap
        cases h
        rw [enforceRewriteCap] at hcap
        split at hcap
        · cases hcap
          rw [restore_rewritten, withBody_withMessages_eq]
          refine and_congr_right fun _ => hsame.trans ?_
          rw [HistoryKept, show s.messages.any isUnsupportedHistoryItem = false from hsupported]
          simp
          rfl
        · cases hcap
      · cases h

theorem lowerDeclaredAndDiscovered_error {discovered : List Json}
    (h : lowerDeclaredAndDiscovered measure limits s discovered = (.error rejection, s')) :
    s' = s ↔ KeptOnLowering limits s discovered := by
  obtain ⟨body, hbody, htaken⟩ := takeOriginalTools_taken s
  have hpair : takeOriginalTools s = ((takeOriginalTools s).1, s.withBody body) :=
    Prod.ext rfl hbody
  rw [lowerDeclaredAndDiscovered, hpair] at h
  dsimp only at h
  split at h
  · rename_i hrejected
    cases h
    rw [KeptOnLowering, hrejected, restoreTools_eq htaken]
    simp
  · rename_i L haccepted
    split at h
    · rename_i hidle
      rw [finishWithoutLoweredOrDiscovered] at h
      split at h
      · rename_i hwithheld
        rw [KeptOnLowering, haccepted]
        dsimp only
        rw [if_pos hidle, if_pos hwithheld]
        exact commitLowering_error htaken h
      · rename_i hwithheld
        rw [KeptOnLowering, haccepted]
        dsimp only
        rw [if_pos hidle, if_neg hwithheld]
        rw [restoreTools_taken htaken] at h
        obtain ⟨messages, rfl, hkept⟩ := lowerHistoryOnly_error h
        rw [withBody_withMessages_eq, toolsKept_iff]
        exact and_congr_right fun _ => hkept
    · rename_i hidle
      split at h
      · rename_i hrejected
        cases h
        rw [KeptOnLowering, haccepted]
        dsimp only
        rw [if_neg hidle, hrejected, restoreTools_eq htaken]
        simp
      · rename_i L' haccepted'
        rw [KeptOnLowering, haccepted]
        dsimp only
        rw [if_neg hidle, haccepted']
        exact commitLowering_error htaken h

/-- A refused request is as it was exactly if what is put back was there, and nothing of its
history had been lowered. -/
theorem refused_unchanged
    (h : lowerRequest same measure limits streaming armed s = (.error rejection, s')) :
    s' = s ↔ Kept same limits streaming armed s := by
  rw [lowerRequest] at h
  split at h
  · rename_i hmalformed
    cases h
    simp [Kept, hmalformed]
  · rename_i hmalformed
    dsimp only at h
    split at h
    · rename_i hrejected
      cases h
      rw [Kept, if_neg hmalformed, hrejected]
      simp
    · rename_i discovered hdiscovered
      rw [Kept, if_neg hmalformed, hdiscovered]
      dsimp only
      split at h
      · rename_i howner
        cases h
        rw [if_pos howner]
        simp
      · rename_i howner
        rw [if_neg howner]
        split at h
        · rename_i hnative
          rw [if_pos hnative]
          obtain ⟨messages, rfl, hkept⟩ := lowerHistoryOnly_error h
          exact (withBody_withMessages_eq.trans (and_iff_right rfl)).trans hkept
        · rename_i hnative
          rw [if_neg hnative]
          exact lowerDeclaredAndDiscovered_error h

theorem refused_unchanged_local_shell :
    (lowerSample (withTools [.obj [("type", .str "local_shell")]])).1 =
        .error rejectLocalShellUnsupported ∧
      Kept (fun _ _ => false) ⟨8, 100⟩ false false
        (withTools [.obj [("type", .str "local_shell")]]) :=
  ⟨rfl, (refused_unchanged (show lowerSample _ = (.error _, _) from Prod.ext rfl rfl)).mp rfl⟩

/-- A search of the client has found a tool that cannot be lowered; the request has no tools. -/
def badDiscovery : RequestState :=
  { requestBody := .obj [("model", .str "m")]
    messages := [
      .obj [("type", .str "tool_search_call"), ("execution", .str "client"),
        ("call_id", .str "call_1")],
      .obj [("type", .str "tool_search_output"), ("call_id", .str "call_1"),
        ("tools", .arr [.obj [("type", .str "web_search")]])]] }

theorem tools_appear_on_refusal :
    (lowerSample badDiscovery).1 = .error (rejectUnsupportedDiscovery (some "web_search")) ∧
      (lowerSample badDiscovery).2.requestBody =
        .obj [("model", .str "m"), ("tools", .arr [])] ∧
      (lowerSample badDiscovery).2 ≠ badDiscovery := by
  refine ⟨rfl, rfl, fun h => ?_⟩
  have hbody := congrArg RequestState.requestBody h
  cases hbody

end Requests

end LoweringFailures
