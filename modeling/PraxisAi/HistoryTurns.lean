import PraxisAi.FallibleSteps
import PraxisAi.InputItemSequences

/-! # Turns of a lowered history

The Chat messages of a history, taken apart again: every item is found back as a turn, in its
place, and the reasoning reads as it did in the items. -/
namespace HistoryTurns

open List hiding attach
open JsonValues FiniteTranslation FallibleSteps ResponseState
open InputItemSequences

section Groups

variable {α : Type} {groups before after : List (List α)} {group : List α} {m m' u : ℕ}

/-- Group `m` holds the element at position `u` of the flattened list. -/
def Holds (groups : List (List α)) (m u : ℕ) : Prop :=
  (groups.take m).flatten.length ≤ u ∧ u < (groups.take (m + 1)).flatten.length

theorem length_flatten_take_mono (h : m ≤ m') :
    (groups.take m).flatten.length ≤ (groups.take m').flatten.length := by
  have htake : groups.take m <+: groups.take m' := take_prefix_take_left h
  obtain ⟨more, hmore⟩ := htake
  rw [← hmore, flatten_append, length_append]
  omega

theorem Holds.unique (h : Holds groups m u) (h' : Holds groups m' u) : m = m' := by
  rcases Nat.lt_trichotomy m m' with hlt | heq | hgt
  · have := @length_flatten_take_mono α groups (m + 1) m' hlt
    have := h.2
    have := h'.1
    omega
  · exact heq
  · have := @length_flatten_take_mono α groups (m' + 1) m hgt
    have := h'.2
    have := h.1
    omega

end Groups

/-! ## What the items and the messages say -/

section Turns

/-- A part of a message. Its breakpoint, if any, is where the prompt cache may be cut. -/
inductive Part where
  | text (text : String) (breakpoint : Option Json)
  | image (url detail breakpoint : Option Json)
  | file (fields : List (Option Json)) (breakpoint : Option Json)

inductive Content where
  | text (text : String)
  | parts (parts : List Part)

inductive Turn where
  | toolCall (id name arguments : String)
  | toolResult (callId content : String)
  | message (role : String) (content : Content)

def textOf (field : String) (j : Json) : String := (strField field j).getD ""

def breakpoint (part : Json) : Option Json :=
  match part.get? "prompt_cache_breakpoint" with
  | some .null => none
  | value => value

def fileFields : List String := ["file_id", "filename", "file_data", "file_url"]

def isTextPart (part : Json) : Bool :=
  strField "type" part = some "input_text" || strField "type" part = some "output_text" ||
    strField "type" part = some "text"

def itemPart (part : Json) : Part :=
  if isTextPart part then .text (textOf "text" part) (breakpoint part)
  else if strField "type" part = some "input_image" then
    .image (part.get? "image_url") (part.get? "detail") (breakpoint part)
  else .file (fileFields.map part.get?) (breakpoint part)

/-- A string is kept. Parts stay apart unless all of them are texts without a breakpoint, which
then make one text. -/
def itemContent (item : Json) : Content :=
  match item.get? "content" with
  | some (.str text) => .text text
  | some (.arr parts) =>
    if parts.all fun part => isTextPart part && (breakpoint part).isNone then
      .text (String.join (parts.map (textOf "text")))
    else .parts (parts.map itemPart)
  | _ => .text ""

def chatPart (part : Json) : Part :=
  if strField "type" part = some "text" then
    .text (textOf "text" part) (part.get? "prompt_cache_breakpoint")
  else if strField "type" part = some "image_url" then
    .image ((part.get? "image_url").bind (·.get? "url"))
      ((part.get? "image_url").bind (·.get? "detail")) (part.get? "prompt_cache_breakpoint")
  else .file (fileFields.map fun field => (part.get? "file").bind (·.get? field))
    (part.get? "prompt_cache_breakpoint")

def chatContent : Json → Content
  | .arr parts => .parts (parts.map chatPart)
  | content => .text (content.asStr.getD "")

def partsText (parts : List Json) : String := String.join (parts.map (textOf "text"))

def outputText : Json → String
  | .str text => text
  | .arr parts => partsText parts
  | _ => ""

def itemOutput (item : Json) : String := ((item.get? "output").map outputText).getD ""

def itemSummary (base64 : String → Option ByteArray) (item : Json) : String :=
  ((base64 (textOf "encrypted_content" item)).bind String.fromUTF8?).getD ""

def summaryPrefix (item : Json) : String :=
  (strField "summary_prefix" item).getD "[Previous conversation summary]\n\n"

def itemTurns (base64 : String → Option ByteArray) (item : Json) : List Turn :=
  if itemType item = some "function_call" then
    [.toolCall (textOf "call_id" item) (textOf "name" item) (textOf "arguments" item)]
  else if itemType item = some "reasoning" then []
  else if itemType item = some "function_call_output" then
    [.toolResult (textOf "call_id" item) (itemOutput item)]
  else if itemType item = some "compaction" then
    if (itemSummary base64 item).isEmpty then []
    else [.message "assistant" (.text (summaryPrefix item ++ itemSummary base64 item))]
  else [.message (textOf "role" item) (itemContent item)]

def callTurn (call : Json) : Turn :=
  .toolCall (textOf "id" call) (((call.get? "function").map (textOf "name")).getD "")
    (((call.get? "function").map (textOf "arguments")).getD "")

/-- The turns of a Chat message; one without content and calls only carries reasoning. -/
def messageTurns (message : Json) : List Turn :=
  match message.get? "tool_calls" with
  | some calls => (calls.asArr.getD []).map callTurn
  | none =>
    match message.get? "tool_call_id" with
    | some callId => [.toolResult (callId.asStr.getD "") (textOf "content" message)]
    | none =>
      match message.get? "content" with
      | none => []
      | some .null => []
      | some content => [.message (textOf "role" message) (chatContent content)]

def reasoningText (item : Json) : String :=
  partsText (((item.get? "content").bind Json.asArr).getD [])

def reasoningTexts (items : List Json) : List String :=
  (items.filter fun item => itemType item = some "reasoning").map reasoningText

def joinLines (texts : List String) : String := "\n".intercalate texts

def Linking (item : Json) : Prop :=
  itemType item = some "function_call" ∨ itemType item = some "reasoning"

end Turns

/-! ## What one item adds -/

section Steps

variable {base64 : String → Option ByteArray} {options : ReasoningOptions}

/-- What a list of messages says: its turns and its reasoning, which assistants alone carry. -/
structure Carries (added : List Json) (turns : List Turn) (reasoning : List String) : Prop where
  turns : added.flatMap messageTurns = turns
  reasoning : added.filterMap (strField "reasoning") = reasoning
  assistant : ∀ m ∈ added, m.get? "reasoning" ≠ none → strField "role" m = some "assistant"

theorem Carries.nil : Carries [] [] [] := ⟨rfl, rfl, by simp⟩

theorem Carries.append {a b : List Json} {t u : List Turn} {r q : List String}
    (ha : Carries a t r) (hb : Carries b u q) : Carries (a ++ b) (t ++ u) (r ++ q) where
  turns := by rw [flatMap_append, ha.turns, hb.turns]
  reasoning := by rw [filterMap_append, ha.reasoning, hb.reasoning]
  assistant m hm := by
    rcases mem_append.mp hm with hm | hm
    · exact ha.assistant m hm
    · exact hb.assistant m hm

def withReasoning (pending : Option String) (message : Json) : Json :=
  pending.elim message fun text => message.insert "reasoning" (.str text)

theorem attach_ok {pending : Option String} {message : Json} {r : Json × Option String}
    (h : attach options pending message = .ok r) : r = (withReasoning pending message, none) := by
  cases pending with
  | none => exact (Except.ok.inj h).symm
  | some text =>
    cases hdialect : options.dialect with
    | none =>
      simp only [attach, hdialect] at h
      cases h
    | vllm =>
      simp only [attach, hdialect] at h
      exact (Except.ok.inj h).symm

theorem get?_withReasoning {key : String} (hkey : key ≠ "reasoning") (pending : Option String)
    (message : Json) : (withReasoning pending message).get? key = message.get? key := by
  cases pending with
  | none => rfl
  | some text => exact Json.get?_insert_of_ne hkey message _

theorem messageTurns_withReasoning (pending : Option String) (message : Json) :
    messageTurns (withReasoning pending message) = messageTurns message := by
  unfold messageTurns textOf strField
  rw [get?_withReasoning (by decide), get?_withReasoning (by decide),
    get?_withReasoning (by decide), get?_withReasoning (by decide)]

theorem reasoning_withReasoning (pending : Option String) (fields : List (String × Json))
    (hfields : (Json.obj fields).get? "reasoning" = none) :
    strField "reasoning" (withReasoning pending (.obj fields)) = pending := by
  cases pending with
  | none => rw [strField, withReasoning, Option.elim_none, hfields]; rfl
  | some text => rw [strField, withReasoning, Option.elim_some, Json.get?_insert]; rfl

theorem carries_assistant (pending : Option String) {fields : List (String × Json)}
    (hfields : (Json.obj fields).get? "reasoning" = none)
    (hrole : strField "role" (.obj fields) = some "assistant") :
    Carries [withReasoning pending (.obj fields)] (messageTurns (.obj fields))
      pending.toList where
  turns := by rw [flatMap_singleton, messageTurns_withReasoning]
  reasoning := by
    rw [filterMap_cons, reasoning_withReasoning pending fields hfields]
    cases pending <;> rfl
  assistant m hm _ := by
    rw [mem_singleton.mp hm, strField, get?_withReasoning (by decide)]
    exact hrole

theorem carries_plain {fields : List (String × Json)}
    (hfields : (Json.obj fields).get? "reasoning" = none) :
    Carries [.obj fields] (messageTurns (.obj fields)) [] where
  turns := flatMap_singleton _ _
  reasoning := by rw [filterMap_cons, strField, hfields]; rfl
  assistant m hm h := by
    rw [mem_singleton.mp hm] at h
    exact absurd hfields h

def standaloneMessages (pending : Option String) : List Json :=
  pending.toList.map fun text =>
    withReasoning (some text) (.obj [("role", .str "assistant"), ("content", .null)])

theorem carries_standalone (pending : Option String) :
    Carries (standaloneMessages pending) [] pending.toList := by
  cases pending with
  | none => exact Carries.nil
  | some text => exact carries_assistant (some text) rfl rfl

theorem flushStandalone_ok {s s' : Appending} (h : flushStandalone options s = .ok s') :
    s' = ⟨s.messages ++ standaloneMessages s.replay, s.pendingToolCalls, none⟩ := by
  obtain ⟨messages, calls, replay⟩ := s
  cases replay with
  | none =>
    cases h
    simp [standaloneMessages]
  | some text =>
    obtain ⟨r, hattach, hs'⟩ := bind_ok h
    rw [attach_ok hattach] at hs'
    exact (Except.ok.inj hs').symm

def callMessages (s : Appending) : List Json :=
  if s.pendingToolCalls.isEmpty then []
  else [withReasoning s.replay (.obj [("role", .str "assistant"), ("content", .null),
    ("tool_calls", .arr s.pendingToolCalls)])]

def leftReasoning (s : Appending) : Option String :=
  if s.pendingToolCalls.isEmpty then s.replay else none

def callReasoning (s : Appending) : Option String :=
  if s.pendingToolCalls.isEmpty then none else s.replay

theorem callReasoning_append_leftReasoning (s : Appending) :
    (callReasoning s).toList ++ (leftReasoning s).toList = s.replay.toList := by
  unfold callReasoning leftReasoning
  by_cases h : s.pendingToolCalls.isEmpty = true
  · rw [if_pos h, if_pos h]
    rfl
  · rw [if_neg h, if_neg h]
    exact append_nil _

theorem carries_calls (s : Appending) :
    Carries (callMessages s) (s.pendingToolCalls.map callTurn) (callReasoning s).toList := by
  unfold callMessages callReasoning
  by_cases h : s.pendingToolCalls.isEmpty = true
  · rw [if_pos h, if_pos h, List.isEmpty_iff.mp h]
    exact Carries.nil
  · rw [if_neg h, if_neg h]
    exact carries_assistant s.replay rfl rfl

theorem flushPendingFunctionCalls_ok {s s' : Appending}
    (h : flushPendingFunctionCalls options s = .ok s') :
    s' = ⟨s.messages ++ callMessages s, [], leftReasoning s⟩ := by
  unfold flushPendingFunctionCalls at h
  unfold callMessages leftReasoning
  by_cases hempty : s.pendingToolCalls.isEmpty = true
  · rw [if_pos hempty] at h ⊢
    rw [if_pos hempty, append_nil, ← List.isEmpty_iff.mp hempty]
    exact (Except.ok.inj h).symm
  · rw [if_neg hempty] at h ⊢
    rw [if_neg hempty]
    obtain ⟨r, hattach, hs'⟩ := bind_ok h
    rw [attach_ok hattach] at hs'
    exact (Except.ok.inj hs').symm

theorem requiredInputItemString_ok {obj : Json} {kind field value : String}
    (h : requiredInputItemString obj kind field = .ok value) : strField field obj = some value := by
  unfold requiredInputItemString at h
  cases hget : obj.get? field with
  | none =>
    rw [hget] at h
    cases h
  | some j =>
    rw [hget] at h
    cases j with
    | str text =>
      cases h
      rw [strField, hget]
      rfl
    | _ => cases h

theorem functionCallToolCall_ok {item call : Json} (h : functionCallToolCall item = .ok call) :
    callTurn call =
      .toolCall (textOf "call_id" item) (textOf "name" item) (textOf "arguments" item) := by
  obtain ⟨callId, hcallId, h⟩ := bind_ok h
  obtain ⟨name, hname, h⟩ := bind_ok h
  obtain ⟨arguments, harguments, h⟩ := bind_ok h
  cases h
  simp only [textOf, requiredInputItemString_ok hcallId, requiredInputItemString_ok hname,
    requiredInputItemString_ok harguments]
  rfl

theorem convertInputContent_ne_null {content converted : Json}
    (h : convertInputContent content = .ok converted) : converted ≠ .null := by
  rintro rfl
  cases content with
  | str text => cases h
  | arr parts =>
    obtain ⟨parts, -, h⟩ := bind_ok h
    unfold ConvertedContentParts.finish at h
    by_cases hall : parts.allText = true
    · rw [if_pos hall] at h
      cases h
    · rw [if_neg hall] at h
      cases h
  | _ => cases h

theorem breakpoint_eq (part : Json) : promptCacheBreakpoint part = breakpoint part := by
  unfold promptCacheBreakpoint breakpoint
  cases part.get? "prompt_cache_breakpoint" with
  | none => rfl
  | some value => cases value <;> rfl

theorem get?_copyPromptCacheBreakpoint (part : Json) {fields : List (String × Json)} {key : String}
    (hkey : key ≠ "prompt_cache_breakpoint") :
    (Json.obj (copyPromptCacheBreakpoint part fields)).get? key = (Json.obj fields).get? key := by
  unfold copyPromptCacheBreakpoint
  cases promptCacheBreakpoint part with
  | none => rfl
  | some value => exact Json.lookup_setField_of_ne hkey value fields

theorem breakpoint_copyPromptCacheBreakpoint (part : Json) {fields : List (String × Json)}
    (hfields : fields.lookup "prompt_cache_breakpoint" = none) :
    (Json.obj (copyPromptCacheBreakpoint part fields)).get? "prompt_cache_breakpoint" =
      breakpoint part := by
  rw [← breakpoint_eq]
  unfold copyPromptCacheBreakpoint
  cases promptCacheBreakpoint part with
  | none => exact hfields
  | some value => exact Json.lookup_setField _ value fields

theorem lookup_copyField (part : Json) (fields : List (String × Json)) (key other : String) :
    (copyField part fields key).lookup other =
      if other = key then (part.get? key).or (fields.lookup key) else fields.lookup other := by
  unfold copyField
  cases part.get? key with
  | none =>
    split_ifs with h
    · rw [h, Option.none_or]
    · rfl
  | some value =>
    split_ifs with h
    · rw [h]
      exact Json.lookup_setField key value fields
    · exact Json.lookup_setField_of_ne h value fields

theorem chatPart_text {part : Json} {text : String} (htext : strField "text" part = some text) :
    chatPart (.obj (copyPromptCacheBreakpoint part [("type", .str "text"), ("text", .str text)])) =
      .text (textOf "text" part) (breakpoint part) := by
  simp only [chatPart, textOf, strField, get?_copyPromptCacheBreakpoint part
    (show "type" ≠ "prompt_cache_breakpoint" by decide), get?_copyPromptCacheBreakpoint part
    (show "text" ≠ "prompt_cache_breakpoint" by decide)]
  rw [strField] at htext
  rw [breakpoint_copyPromptCacheBreakpoint part rfl, htext]
  rfl

theorem chatPart_image {part image : Json} (h : convertInputImagePart part = .ok image) :
    chatPart image = .image (part.get? "image_url") (part.get? "detail") (breakpoint part) := by
  unfold convertInputImagePart at h
  by_cases hobject : (!isObject part) = true
  · rw [if_pos hobject] at h
    cases h
  rw [if_neg hobject] at h
  cases hurl : part.get? "image_url" with
  | none =>
    rw [hurl] at h
    cases h
  | some url =>
    rw [hurl] at h
    cases h
    simp only [chatPart, strField, get?_copyPromptCacheBreakpoint part
      (show "type" ≠ "prompt_cache_breakpoint" by decide), get?_copyPromptCacheBreakpoint part
      (show "image_url" ≠ "prompt_cache_breakpoint" by decide)]
    rw [breakpoint_copyPromptCacheBreakpoint part rfl]
    simp [Json.get?, Json.asStr, lookup_cons, lookup_copyField]

theorem chatPart_file {part file : Json} (h : convertInputFilePart part = .ok file) :
    chatPart file = .file (fileFields.map part.get?) (breakpoint part) := by
  unfold convertInputFilePart at h
  by_cases hobject : (!isObject part) = true
  · rw [if_pos hobject] at h
    cases h
  rw [if_neg hobject] at h
  simp only at h
  split_ifs at h
  cases h
  simp only [chatPart, strField, get?_copyPromptCacheBreakpoint part
    (show "type" ≠ "prompt_cache_breakpoint" by decide), get?_copyPromptCacheBreakpoint part
    (show "file" ≠ "prompt_cache_breakpoint" by decide)]
  rw [breakpoint_copyPromptCacheBreakpoint part rfl]
  simp [Json.get?, Json.asStr, lookup_cons, lookup_copyField, fileFields]

/-- What the parts that have been taken in have become. -/
structure Converted (done : List Json) (converted : ConvertedContentParts) : Prop where
  parts : converted.chatParts.map chatPart = done.map itemPart
  allText : converted.allText = done.all fun part => isTextPart part && (breakpoint part).isNone
  texts : converted.allText = true → converted.textParts = done.map (textOf "text")

theorem Converted.text {done : List Json} {converted next : ConvertedContentParts} {part : Json}
    (h : Converted done converted) (htext : isTextPart part = true)
    (hnext : converted.pushText part = .ok next) : Converted (done ++ [part]) next := by
  unfold ConvertedContentParts.pushText at hnext
  cases hfield : strField "text" part with
  | none =>
    rw [hfield] at hnext
    cases hnext
  | some text =>
    rw [hfield] at hnext
    cases hnext
    refine ⟨?_, ?_, fun hall => ?_⟩
    · rw [map_append, map_append, h.parts, map_singleton, map_singleton,
        chatPart_text hfield, itemPart, if_pos htext]
    · simp [h.allText, htext, breakpoint_eq]
    · have hbefore := h.texts (Bool.and_eq_true_iff.mp hall).1
      simp only [hbefore, map_append, map_singleton, textOf, hfield, Option.getD_some]

theorem Converted.nonText {done : List Json} {converted : ConvertedContentParts} {part made : Json}
    (h : Converted done converted) (htext : isTextPart part = false)
    (hmade : chatPart made = itemPart part) :
    Converted (done ++ [part]) (converted.pushNonText made) := by
  refine ⟨?_, ?_, fun hall => by cases hall⟩
  · rw [ConvertedContentParts.pushNonText, map_append, map_append, h.parts,
      map_singleton, map_singleton, hmade]
  · simp [ConvertedContentParts.pushNonText, htext]

theorem Converted.push {done : List Json} {converted next : ConvertedContentParts} {part : Json}
    (h : Converted done converted) (hnext : converted.push part = .ok next) :
    Converted (done ++ [part]) next := by
  unfold ConvertedContentParts.push at hnext
  split at hnext
  · next htype => exact h.text (by simp [isTextPart, htype]) hnext
  · next htype => exact h.text (by simp [isTextPart, htype]) hnext
  · next htype => exact h.text (by simp [isTextPart, htype]) hnext
  · next htype =>
    obtain ⟨image, himage, hnext⟩ := bind_ok hnext
    cases hnext
    have htext : isTextPart part = false := by simp [isTextPart, htype]
    refine h.nonText htext ?_
    rw [chatPart_image himage, itemPart, htext, if_neg Bool.false_ne_true, if_pos htype]
  · next htype =>
    obtain ⟨file, hfile, hnext⟩ := bind_ok hnext
    cases hnext
    have htext : isTextPart part = false := by simp [isTextPart, htype]
    refine h.nonText htext ?_
    rw [chatPart_file hfile, itemPart, htext, if_neg Bool.false_ne_true, if_neg (by simp [htype])]
  · cases hnext
  · cases hnext

theorem convertInputContent_ok {item content converted : Json}
    (hitem : item.get? "content" = some content)
    (h : convertInputContent content = .ok converted) :
    chatContent converted = itemContent item := by
  rw [itemContent, hitem]
  cases content with
  | str text =>
    cases h
    rfl
  | arr parts =>
    obtain ⟨all, hall, h⟩ := bind_ok h
    have hstart : Converted [] {} := ⟨rfl, rfl, fun _ => rfl⟩
    have hdone := foldlM_ok (P := Converted) (fun _ _ _ _ h hnext => h.push hnext) hstart hall
    rw [nil_append] at hdone
    cases h
    dsimp only
    rw [ConvertedContentParts.finish, ← hdone.allText]
    split_ifs with htext
    · rw [hdone.texts htext]
      rfl
    · rw [← hdone.parts]
      rfl
  | _ => cases h

theorem messageTurns_text {role : String} {content : Json} (hcontent : content ≠ .null) :
    messageTurns (.obj [("role", .str role), ("content", content)]) =
      [.message role (chatContent content)] := by
  cases content with
  | null => exact absurd rfl hcontent
  | _ => rfl

theorem appendPart_all {step : String → Json → Except TranslationError String}
    (hstep : ∀ text part text', step text part = .ok text' → text' = text ++ textOf "text" part)
    {parts : List Json} {text text' : String} (h : parts.foldlM step text = .ok text') :
    text' = text ++ partsText parts := by
  induction parts generalizing text with
  | nil =>
    cases h
    simp [partsText]
  | cons part parts ih =>
    rw [foldlM_cons] at h
    obtain ⟨next, hnext, h⟩ := bind_ok h
    rw [ih h, hstep _ _ _ hnext, String.append_assoc]
    simp [partsText]

theorem appendOutputPart_ok (text : String) (part : Json) (text' : String)
    (h : appendOutputPart text part = .ok text') : text' = text ++ textOf "text" part := by
  unfold appendOutputPart at h
  cases htype : strField "type" part with
  | none =>
    rw [htype] at h
    cases h
  | some kind =>
    rw [htype] at h
    simp only at h
    by_cases hkind : kind = "input_text"
    · rw [if_pos hkind] at h
      cases htext : strField "text" part with
      | none =>
        rw [htext] at h
        cases h
      | some more =>
        rw [htext] at h
        cases h
        rw [textOf, htext]
        rfl
    · rw [if_neg hkind] at h
      cases h

theorem convertFunctionCallOutput_ok {output : Json} {content : String}
    (h : convertFunctionCallOutput output = .ok content) : outputText output = content := by
  cases output with
  | str text => exact Except.ok.inj h
  | arr parts =>
    have htext := appendPart_all appendOutputPart_ok h
    rw [String.empty_append] at htext
    exact htext.symm
  | _ => cases h

theorem appendReasoningPart_ok {maxBytes : Usize} (text : String) (part : Json) (text' : String)
    (h : appendReasoningPart maxBytes text part = .ok text') :
    text' = text ++ textOf "text" part := by
  unfold appendReasoningPart at h
  by_cases htype : strField "type" part ≠ some "reasoning_text"
  · rw [if_pos htype] at h
    cases h
  · rw [if_neg htype] at h
    cases htext : strField "text" part with
    | none =>
      rw [htext] at h
      cases h
    | some chunk =>
      rw [htext] at h
      obtain ⟨-, -, h⟩ := bind_ok h
      cases h
      rw [textOf, htext]
      rfl

theorem reasoningInputText_ok {item : Json} {text : String}
    (h : reasoningInputText item options = .ok text) : text = reasoningText item := by
  unfold reasoningInputText at h
  by_cases hdialect : (!options.dialect.isEnabled) = true
  · rw [if_pos hdialect] at h
    cases h
  rw [if_neg hdialect] at h
  by_cases hencrypted : ((item.get? "encrypted_content").any fun value =>
      jsonTypeName value != "null") = true
  · rw [if_pos hencrypted] at h
    cases h
  rw [if_neg hencrypted] at h
  cases hcontent : (item.get? "content").bind Json.asArr with
  | none =>
    rw [hcontent] at h
    cases h
  | some parts =>
    rw [hcontent] at h
    obtain ⟨all, hall, h⟩ := bind_ok h
    have htext := appendPart_all appendReasoningPart_ok hall
    rw [String.empty_append] at htext
    by_cases hempty : all.isEmpty = true
    · rw [if_pos hempty] at h
      cases h
    · rw [if_neg hempty] at h
      cases h
      rw [reasoningText, hcontent]
      exact htext

/-- What an item adds when no call is pending: its own turn, behind what is left of the
reasoning. -/
def Adds (s s' : Appending) (turns : List Turn) : Prop :=
  ∃ rest, s' = ⟨s.messages ++ rest, s.pendingToolCalls, none⟩ ∧
    Carries rest turns s.replay.toList

theorem Adds.of_standalone {s : Appending} {message : Json} {turns : List Turn}
    (h : Carries [message] turns []) :
    Adds s ⟨s.messages ++ standaloneMessages s.replay ++ [message], s.pendingToolCalls, none⟩
      turns := by
  refine ⟨standaloneMessages s.replay ++ [message], by rw [append_assoc], ?_⟩
  have := (carries_standalone s.replay).append h
  rwa [nil_append, append_nil] at this

theorem appendToolOutput_ok {s s₁ s' : Appending} {item : Json}
    (hflush : flushStandalone options s = .ok s₁) (h : appendToolOutput s₁ item = .ok s') :
    Adds s s' [.toolResult (textOf "call_id" item) (itemOutput item)] := by
  rw [flushStandalone_ok hflush] at h
  obtain ⟨callId, hcallId, h⟩ := bind_ok h
  cases houtput : item.get? "output" with
  | none =>
    rw [houtput] at h
    cases h
  | some output =>
    rw [houtput] at h
    obtain ⟨content, hcontent, h⟩ := bind_ok h
    cases h
    have htext : textOf "call_id" item = callId := by
      rw [textOf, requiredInputItemString_ok hcallId]
      rfl
    have hout : itemOutput item = content := by
      rw [itemOutput, houtput, Option.map_some, convertFunctionCallOutput_ok hcontent]
      rfl
    rw [htext, hout]
    exact Adds.of_standalone (carries_plain rfl)

theorem appendCompactionItem_ok {s s₁ s' : Appending} {item : Json}
    (hflush : flushStandalone options s = .ok s₁)
    (h : appendCompactionItem base64 s₁ item = .ok s') :
    Adds s s' (if (itemSummary base64 item).isEmpty then []
      else [.message "assistant" (.text (summaryPrefix item ++ itemSummary base64 item))]) := by
  rw [flushStandalone_ok hflush] at h
  obtain ⟨encoded, hencoded, h⟩ := bind_ok h
  obtain ⟨summary, hsummary, h⟩ := bind_ok h
  have htext : itemSummary base64 item = summary := by
    rw [itemSummary, textOf, requiredInputItemString_ok hencoded, Option.getD_some]
    unfold decodeCompactionSummary at hsummary
    cases hbytes : base64 encoded with
    | none =>
      rw [hbytes] at hsummary
      cases hsummary
    | some bytes =>
      rw [hbytes] at hsummary
      cases hutf8 : String.fromUTF8? bytes with
      | none =>
        simp only [hutf8] at hsummary
        cases hsummary
      | some text =>
        simp only [hutf8] at hsummary
        cases hsummary
        rw [Option.bind_some, hutf8]
        rfl
  rw [htext]
  by_cases hempty : summary.isEmpty = true
  · rw [if_pos hempty] at h ⊢
    cases h
    exact ⟨_, rfl, carries_standalone s.replay⟩
  · rw [if_neg hempty] at h ⊢
    cases h
    exact Adds.of_standalone (carries_plain rfl)

theorem appendMessageItem_ok {s s' : Appending} {item : Json}
    (h : appendMessageItem options s item = .ok s') :
    Adds s s' [.message (textOf "role" item) (itemContent item)] := by
  obtain ⟨role, hrole, h⟩ := bind_ok h
  cases hget : item.get? "content" with
  | none =>
    rw [hget] at h
    cases h
  | some content =>
    rw [hget] at h
    obtain ⟨converted, hconverted, h⟩ := bind_ok h
    have htext : textOf "role" item = role := by
      rw [textOf, requiredInputItemString_ok hrole]
      rfl
    have hcontent := convertInputContent_ok hget hconverted
    have hturns := @messageTurns_text role converted (convertInputContent_ne_null hconverted)
    rw [htext, ← hcontent, ← hturns]
    by_cases hassistant : role = "assistant"
    · rw [if_pos hassistant] at h
      obtain ⟨r, hattach, h⟩ := bind_ok h
      rw [attach_ok hattach] at h
      cases h
      refine ⟨_, rfl, carries_assistant s.replay rfl ?_⟩
      rw [hassistant]
      rfl
    · rw [if_neg hassistant] at h
      obtain ⟨s₁, hflush, h⟩ := bind_ok h
      rw [flushStandalone_ok hflush] at h
      cases h
      exact Adds.of_standalone (carries_plain rfl)

theorem appendInputItem_ok {s s' : Appending} {item : Json} (hlinking : ¬Linking item)
    (h : appendInputItem base64 options s item = .ok s') :
    Adds s s' (itemTurns base64 item) := by
  unfold appendInputItem at h
  by_cases hobject : (!isObject item) = true
  · rw [if_pos hobject] at h
    cases h
  rw [if_neg hobject] at h
  obtain ⟨kind, hkind, h⟩ := bind_ok h
  have htype : itemType item = kind := by
    unfold inputItemType at hkind
    cases hget : item.get? "type" with
    | none =>
      rw [hget] at hkind
      cases hkind
      rw [itemType, strField, hget]
      rfl
    | some j =>
      rw [hget] at hkind
      cases j with
      | str text =>
        cases hkind
        rw [itemType, strField, hget]
        rfl
      | _ => cases hkind
  rw [Linking, htype, not_or] at hlinking
  rw [itemTurns, htype, if_neg hlinking.1, if_neg hlinking.2]
  cases kind with
  | none =>
    rw [if_neg (by simp), if_neg (by simp)]
    simp only at h
    by_cases hmessage : ((item.get? "role").isSome || (item.get? "content").isSome) = true
    · rw [if_pos hmessage] at h
      exact appendMessageItem_ok h
    · rw [if_neg hmessage] at h
      cases h
  | some kind =>
    simp only [Option.some.injEq] at h ⊢
    by_cases houtput : kind = "function_call_output"
    · rw [if_pos houtput] at h ⊢
      obtain ⟨s₁, hflush, h⟩ := bind_ok h
      exact appendToolOutput_ok hflush h
    rw [if_neg houtput] at h ⊢
    by_cases hmessage : kind = "message"
    · rw [if_pos hmessage] at h
      rw [if_neg (by rw [hmessage]; decide)]
      exact appendMessageItem_ok h
    rw [if_neg hmessage] at h
    by_cases hcompaction : kind = "compaction"
    · rw [if_pos hcompaction] at h ⊢
      obtain ⟨s₁, hflush, h⟩ := bind_ok h
      exact appendCompactionItem_ok hflush h
    · rw [if_neg hcompaction] at h
      cases h

theorem appendSequenceItem_cases {s s' : Appending} {item : Json}
    (h : appendSequenceItem base64 options s item = .ok s') :
    (itemType item = some "function_call" ∧ ∃ call,
      [callTurn call] = itemTurns base64 item ∧
      s' = { s with pendingToolCalls := s.pendingToolCalls ++ [call] }) ∨
    (itemType item = some "reasoning" ∧ s' = { s with replay := some (s.replay.elim
      (reasoningText item) fun before => before ++ "\n" ++ reasoningText item) }) ∨
    (¬Linking item ∧ ∃ rest, s' = ⟨s.messages ++ callMessages s ++ rest, [], none⟩ ∧
      Carries rest (itemTurns base64 item) (leftReasoning s).toList) := by
  unfold appendSequenceItem at h
  by_cases hcall : itemType item = some "function_call"
  · left
    rw [if_pos hcall] at h
    obtain ⟨call, hok, h⟩ := bind_ok h
    refine ⟨hcall, call, ?_, (Except.ok.inj h).symm⟩
    rw [functionCallToolCall_ok hok, itemTurns, if_pos hcall]
  rw [if_neg hcall] at h
  by_cases hreasoning : itemType item = some "reasoning"
  · right; left
    rw [if_pos hreasoning] at h
    obtain ⟨replay, hbuffer, h⟩ := bind_ok h
    obtain ⟨text, htext, hbuffer⟩ := bind_ok hbuffer
    cases h
    refine ⟨hreasoning, ?_⟩
    rw [← reasoningInputText_ok htext]
    cases hreplay : s.replay with
    | none =>
      rw [hreplay] at hbuffer
      cases hbuffer
      rfl
    | some before =>
      rw [hreplay] at hbuffer
      obtain ⟨-, -, hbuffer⟩ := bind_ok hbuffer
      cases hbuffer
      rfl
  · right; right
    rw [if_neg hreasoning] at h
    have hlinking : ¬Linking item := not_or.mpr ⟨hcall, hreasoning⟩
    obtain ⟨s₁, hflush, h⟩ := bind_ok h
    obtain ⟨rest, hs', hcarries⟩ := appendInputItem_ok hlinking h
    rw [flushPendingFunctionCalls_ok hflush] at hs' hcarries
    exact ⟨hlinking, rest, hs', hcarries⟩

end Steps

/-! ## Whole sequences -/

section Sequences

variable {base64 : String → Option ByteArray} {options : ReasoningOptions}

theorem reasoningTexts_append (before after : List Json) :
    reasoningTexts (before ++ after) =
      reasoningTexts before ++ reasoningTexts after := by
  simp [reasoningTexts]

theorem joinLines_concat {texts : List String} (hne : texts ≠ []) (text : String) :
    joinLines (texts ++ [text]) = joinLines texts ++ "\n" ++ text := by
  rw [joinLines, String.intercalate_append_of_ne_nil hne (cons_ne_nil _ _),
    String.intercalate_singleton]
  rfl

structure SameLines (a b : List String) : Prop where
  lines : joinLines a = joinLines b
  empty : a = [] ↔ b = []

theorem SameLines.concat {a b : List String} (h : SameLines a b) (text : String) :
    SameLines (a ++ [text]) (b ++ [text]) := by
  refine ⟨?_, by simp⟩
  by_cases ha : a = []
  · rw [ha, h.empty.mp ha]
  · rw [joinLines_concat ha, joinLines_concat (mt h.empty.mpr ha), h.lines]

theorem SameLines.extend {a b : List String} {before : String}
    (h : SameLines (a ++ [before]) b) (text : String) :
    SameLines (a ++ [before ++ "\n" ++ text]) (b ++ [text]) := by
  have hb : b ≠ [] := by
    intro hnil
    simpa using h.empty.mpr hnil
  refine ⟨?_, by simp⟩
  rw [joinLines_concat hb, ← h.lines]
  by_cases ha : a = []
  · rw [ha]
    simp [joinLines]
  · rw [joinLines_concat ha, joinLines_concat ha]
    simp only [String.append_assoc]

/-- What has been appended after some of the items, next to what is pending. -/
structure Appended (base64 : String → Option ByteArray) (start items : List Json)
    (s : Appending) : Prop where
  intro ::
  carried : ∃ added turns reasoning, s.messages = start ++ added ∧ Carries added turns reasoning ∧
    turns ++ s.pendingToolCalls.map callTurn = items.flatMap (itemTurns base64) ∧
    SameLines (reasoning ++ s.replay.toList) (reasoningTexts items)

theorem Appended.step {start done : List Json} {item : Json} {s s' : Appending}
    (h : Appended base64 start done s)
    (hstep : appendSequenceItem base64 options s item = .ok s') :
    Appended base64 start (done ++ [item]) s' := by
  obtain ⟨added, turns, reasoning, hmessages, hcarries, hturns, hlines⟩ := h.carried
  constructor
  rw [flatMap_append, flatMap_singleton, reasoningTexts_append, ← hturns]
  rcases appendSequenceItem_cases hstep with ⟨hcall, call, hturn, rfl⟩ |
    ⟨hreasoning, rfl⟩ | ⟨hlinking, rest, rfl, hrest⟩
  · refine ⟨added, turns, reasoning, hmessages, hcarries, ?_, ?_⟩
    · rw [← hturn, map_append, append_assoc]
      rfl
    · have hnone : reasoningTexts [item] = [] := by simp [reasoningTexts, hcall]
      rwa [hnone, append_nil]
  · refine ⟨added, turns, reasoning, hmessages, hcarries, ?_, ?_⟩
    · have hnone : itemTurns base64 item = [] := by simp [itemTurns, hreasoning]
      rw [hnone, append_nil]
    · have hsome : reasoningTexts [item] = [reasoningText item] := by
        simp [reasoningTexts, hreasoning]
      rw [hsome]
      cases hreplay : s.replay with
      | none =>
        rw [hreplay, Option.toList_none, append_nil] at hlines
        exact hlines.concat _
      | some before =>
        rw [hreplay] at hlines
        exact hlines.extend _
  · have hnone : reasoningTexts [item] = [] := by
      have : itemType item ≠ some "reasoning" := fun h => hlinking (.inr h)
      simp [reasoningTexts, this]
    rw [hnone, append_nil]
    refine ⟨added ++ (callMessages s ++ rest), _, _, by simp [hmessages],
      hcarries.append ((carries_calls s).append hrest), by simp, ?_⟩
    rwa [callReasoning_append_leftReasoning, Option.toList_none, append_nil]

theorem Appended.start (start : List Json) : Appended base64 start [] ⟨start, [], none⟩ :=
  ⟨[], [], [], by simp, Carries.nil, rfl, ⟨rfl, Iff.rfl⟩⟩

variable {start items messages added : List Json}

end Sequences

end HistoryTurns
