import PraxisAi.BedrockTranslation
import PraxisAi.EventStreamRoundTrip

/-! # What a translated provider stream sends

Frames are drained in batches, one for each chunk that arrives. A bad frame takes the frames of
its batch with it, and the stream goes on after it, so what is sent can depend on how the bytes
were cut and can go on after an error; both are settled here for every stream. -/
namespace BedrockStream

open List
open SseFrames JsonValues EventStreamFrames BatchedFrames BedrockTranslation

variable {fromSlice : PayloadReader}

section Frames

variable (fromSlice)

/-- A translation that is not silent: it is refused, the process ends, or there is a chunk, after
which as many more tool calls have been opened as the frame opens. -/
inductive Speaks (state : StreamState) (sound opens overflows : Bool) : Translated → Prop where
  | refused (error : String) (unsound : sound = false) :
    Speaks state sound opens overflows (.error (.refused error))
  | overflow (hsound : sound = true) (hover : overflows = true) :
    Speaks state sound opens overflows (.error .overflow)
  | chunk (value : Json) (state' : StreamState) (plain : value.get? "error" = none)
    (hsound : sound = true) (fits : overflows = false)
    (opened : state'.toolCallIndex = state.toolCallIndex + opens.toNat) :
    Speaks state sound opens overflows (.ok (some value, state'))

variable {model id : String} {state : StreamState} {msg : EventStreamMessage}

/-- A block start is silent unless it opens a tool call. -/
def silentStart (payload : Except String Json) : Bool :=
  match payload with
  | .error _ => false
  | .ok payload =>
    ((payload.get? "start").bind Json.asObj).any fun start => (start.lookup "toolUse").isNone

/-- A block delta is silent if it is of a kind that chat chunks cannot show. -/
def silentDelta (payload : Except String Json) : Bool :=
  match payload with
  | .error _ => false
  | .ok payload =>
    ((payload.get? "delta").bind Json.asObj).any fun delta =>
      ((delta.lookup "text").bind Json.asStr).isNone && (delta.lookup "toolUse").isNone &&
        isUnexposed delta

/-- A tool call has an id and a name. -/
def soundStart (payload : Except String Json) : Bool :=
  match payload with
  | .error _ => false
  | .ok payload =>
    ((payload.get? "start").bind Json.asObj).any fun start =>
      (start.lookup "toolUse").all fun toolUse =>
        ((toolUse.get? "toolUseId").bind Json.asStr).isSome &&
          ((toolUse.get? "name").bind Json.asStr).isSome

/-- A delta has a text, a piece of a tool's input, or something that chat chunks cannot show. -/
def soundDelta (payload : Except String Json) : Bool :=
  match payload with
  | .error _ => false
  | .ok payload =>
    ((payload.get? "delta").bind Json.asObj).any fun delta =>
      ((delta.lookup "text").bind Json.asStr).isSome ||
        match delta.lookup "toolUse" with
        | some toolUse => ((toolUse.get? "input").bind Json.asStr).isSome
        | none => isUnexposed delta

def soundStop (payload : Except String Json) : Bool :=
  match payload with
  | .error _ => false
  | .ok payload => ((payload.get? "stopReason").bind Json.asStr).any knownStopReasons.contains

def soundMetadata (payload : Except String Json) : Bool :=
  match payload with
  | .error _ => false
  | .ok payload => (payload.get? "usage").any fun usage => usage.asObj.isSome

/-- The two counts do not add up within 64 bits. -/
def countsOverflow (payload : Except String Json) : Bool :=
  match payload with
  | .error _ => false
  | .ok payload => (payload.get? "usage").any fun usage =>
      2 ^ 64 ≤ ((usage.get? "inputTokens").bind FiniteTranslation.asU64).getD 0 +
        ((usage.get? "outputTokens").bind FiniteTranslation.asU64).getD 0

theorem translateContentBlockStart_spec :
    (silentStart (fromSlice msg.payload) = true ∧
      translateContentBlockStart fromSlice model id state msg = .ok (none, state)) ∨
    (silentStart (fromSlice msg.payload) = false ∧
      Speaks state (soundStart (fromSlice msg.payload)) (soundStart (fromSlice msg.payload))
        (soundStart (fromSlice msg.payload) && decide (2 ^ 32 ≤ state.toolCallIndex + 1))
        (translateContentBlockStart fromSlice model id state msg)) := by
  rw [translateContentBlockStart]
  rcases fromSlice msg.payload with error | payload
  · exact .inr ⟨rfl, .refused _ rfl⟩
  rw [silentStart, soundStart]
  dsimp only
  rcases (payload.get? "start").bind Json.asObj with _ | start
  · exact .inr ⟨rfl, .refused _ rfl⟩
  rw [Option.any_some, Option.any_some]
  dsimp only
  rcases start.lookup "toolUse" with _ | toolUse
  · exact .inl ⟨rfl, rfl⟩
  refine .inr ⟨rfl, ?_⟩
  rw [Option.all_some]
  dsimp only
  rcases (toolUse.get? "toolUseId").bind Json.asStr with _ | toolUseId
  · exact .refused _ rfl
  dsimp only
  rcases (toolUse.get? "name").bind Json.asStr with _ | name
  · exact .refused _ rfl
  dsimp only
  rw [startToolCall]
  split
  · next hfits => exact .chunk _ _ rfl rfl (decide_eq_false (Nat.not_le.mpr hfits)) rfl
  · next hfull => exact .overflow rfl (decide_eq_true (Nat.not_lt.mp hfull))

theorem translateContentBlockDelta_spec :
    (silentDelta (fromSlice msg.payload) = true ∧
      translateContentBlockDelta fromSlice model id state msg = .ok (none, state)) ∨
    (silentDelta (fromSlice msg.payload) = false ∧
      Speaks state (soundDelta (fromSlice msg.payload)) false false
        (translateContentBlockDelta fromSlice model id state msg)) := by
  rw [translateContentBlockDelta]
  rcases fromSlice msg.payload with error | payload
  · exact .inr ⟨rfl, .refused _ rfl⟩
  rw [silentDelta, soundDelta]
  dsimp only
  rcases (payload.get? "delta").bind Json.asObj with _ | delta
  · exact .inr ⟨rfl, .refused _ rfl⟩
  rw [Option.any_some, Option.any_some]
  dsimp only
  rcases (delta.lookup "text").bind Json.asStr with _ | text
  · dsimp only
    rcases delta.lookup "toolUse" with _ | toolInput
    · dsimp only
      rcases isUnexposed delta with _ | _
      · exact .inr ⟨rfl, .refused _ rfl⟩
      · exact .inl ⟨rfl, rfl⟩
    · refine .inr ⟨rfl, ?_⟩
      dsimp only
      rcases (toolInput.get? "input").bind Json.asStr with _ | args
      · exact .refused _ rfl
      · exact .chunk _ _ rfl rfl rfl rfl
  · exact .inr ⟨rfl, .chunk _ _ rfl rfl rfl rfl⟩

theorem speaks_messageStop : Speaks state (soundStop (fromSlice msg.payload)) false false
    (translateMessageStop fromSlice model id state msg) := by
  rw [translateMessageStop]
  rcases fromSlice msg.payload with error | payload
  · exact .refused _ rfl
  rw [soundStop]
  dsimp only
  rcases (payload.get? "stopReason").bind Json.asStr with _ | reason
  · exact .refused _ rfl
  rw [Option.any_some]
  dsimp only
  split
  · next hknown => exact .chunk _ _ rfl hknown rfl rfl
  · next hunknown => exact .refused _ (eq_false_of_ne_true hunknown)

theorem speaks_metadata : Speaks state (soundMetadata (fromSlice msg.payload)) false
    (countsOverflow (fromSlice msg.payload))
    (translateMetadataEvent fromSlice model id state msg) := by
  rw [translateMetadataEvent]
  rcases fromSlice msg.payload with error | payload
  · exact .refused _ rfl
  rw [soundMetadata, countsOverflow]
  dsimp only
  rcases payload.get? "usage" with _ | usage
  · exact .refused _ rfl
  rw [Option.any_some, Option.any_some, Option.filter_some]
  rcases usage.asObj.isSome with _ | _
  · exact .refused _ rfl
  rw [if_pos rfl]
  dsimp only
  cases husage : extractUsage usage with
  | none =>
    simp only [extractUsage] at husage
    split_ifs at husage with hfits
    exact .overflow rfl (decide_eq_true (Nat.not_lt.mp hfits))
  | some counts =>
    simp only [extractUsage] at husage
    split_ifs at husage with hfits
    exact .chunk _ _ rfl rfl (decide_eq_false (Nat.not_le.mpr hfits)) rfl

def isSilent (msg : EventStreamMessage) : Bool :=
  match msg.eventType with
  | none => false
  | some eventType =>
    if eventType = "messageStart" then false
    else if eventType = "contentBlockStart" then silentStart (fromSlice msg.payload)
    else if eventType = "contentBlockDelta" then silentDelta (fromSlice msg.payload)
    else if eventType = "messageStop" then false
    else if eventType = "metadata" then false
    else true

/-- A frame that has what its translation reads. -/
def isSound (msg : EventStreamMessage) : Bool :=
  match msg.eventType with
  | none => false
  | some eventType =>
    if eventType = "messageStart" then true
    else if eventType = "contentBlockStart" then soundStart (fromSlice msg.payload)
    else if eventType = "contentBlockDelta" then soundDelta (fromSlice msg.payload)
    else if eventType = "messageStop" then soundStop (fromSlice msg.payload)
    else if eventType = "metadata" then soundMetadata (fromSlice msg.payload)
    else true

def opensCall (msg : EventStreamMessage) : Bool :=
  msg.eventType == some "contentBlockStart" && soundStart (fromSlice msg.payload)

/-- A frame that ends the process: one tool call too many, or counts that are too large. -/
def overflows (opened : ℕ) (msg : EventStreamMessage) : Bool :=
  opensCall fromSlice msg && decide (2 ^ 32 ≤ opened + 1) ||
    msg.eventType == some "metadata" && countsOverflow (fromSlice msg.payload)

/-- What a frame that is no exception translates to depends on the state only in how many tool
calls have been opened, up to the contents of its chunk. -/
theorem transformStreamEvent_spec (hmsg : msg.isException = false) :
    (isSilent fromSlice msg = true ∧
      transformStreamEvent fromSlice model id state msg = .ok (none, state)) ∨
    (isSilent fromSlice msg = false ∧
      Speaks state (isSound fromSlice msg) (opensCall fromSlice msg)
        (overflows fromSlice state.toolCallIndex msg)
        (transformStreamEvent fromSlice model id state msg)) := by
  rw [transformStreamEvent, isSilent, isSound, overflows, opensCall,
    if_neg (by rw [hmsg]; exact Bool.false_ne_true)]
  rcases msg.eventType with _ | eventType
  · exact .inr ⟨rfl, .refused _ rfl⟩
  dsimp only
  by_cases hstart : eventType = "messageStart"
  · subst hstart
    exact .inr ⟨rfl, .chunk _ _ rfl rfl rfl rfl⟩
  by_cases hblock : eventType = "contentBlockStart"
  · subst hblock
    simpa using @translateContentBlockStart_spec fromSlice model id state msg
  by_cases hdelta : eventType = "contentBlockDelta"
  · subst hdelta
    simpa using @translateContentBlockDelta_spec fromSlice model id state msg
  by_cases hstop : eventType = "messageStop"
  · subst hstop
    exact .inr ⟨rfl, speaks_messageStop fromSlice⟩
  by_cases hmetadata : eventType = "metadata"
  · subst hmetadata
    exact .inr ⟨rfl, speaks_metadata fromSlice⟩
  · simp [hstart, hblock, hdelta, hstop, hmetadata]

/-- A frame that sends nothing: unwanted usage, or an event without a chunk. -/
def isQuiet (includeUsage : Bool) (msg : EventStreamMessage) : Bool :=
  isSuppressed includeUsage msg || (!msg.isException && isSilent fromSlice msg)

end Frames

section Events

inductive EventKind where
  | plain
  | error
  | done
  deriving DecidableEq

def kind : SseEvent → EventKind
  | .data value => if (value.get? "error").isSome then .error else .plain
  | .done => .done

theorem kind_sseError (message code : String) : kind (sseError message code) = .error := rfl

theorem wire_ne_nil (event : SseEvent) : event.wire ≠ [] := by
  cases event with
  | data value =>
    intro h
    have hlen := congrArg List.length h
    have hhead : (ascii "data: ").length = 6 := by decide +kernel
    rw [SseEvent.wire, length_append, length_append, hhead, length_nil] at hlen
    omega
  | done => exact fun h => absurd h (by decide +kernel)

theorem eq_nil_of_flatMap_wire {events : List SseEvent} (h : events.flatMap SseEvent.wire = []) :
    events = [] := by
  cases events with
  | nil => rfl
  | cons event rest => exact absurd (append_eq_nil_iff.mp h).1 (wire_ne_nil event)

end Events

section Handling

variable {s s' : BedrockStreamingState} {msg : EventStreamMessage}

inductive HandledAs (fromSlice : PayloadReader) (s : BedrockStreamingState)
    (msg : EventStreamMessage) : Prop where
  | quiet (hquiet : isQuiet fromSlice s.includeUsage msg = true)
      (h : handleMessage fromSlice s msg = .next [] (s.noted msg))
  | shown (value : Json) (streamState : StreamState)
      (hloud : isQuiet fromSlice s.includeUsage msg = false)
      (hkind : kind (.data value) = if msg.isException then .error else .plain)
      (h : handleMessage fromSlice s msg =
        .next [.data value] ((s.noted msg).withStreamState streamState))
      (hframe : msg.isException = true ∧ streamState = s.streamState ∨
        msg.isException = false ∧ isSound fromSlice msg = true ∧
          overflows fromSlice s.streamState.toolCallIndex msg = false ∧
          streamState.toolCallIndex =
            s.streamState.toolCallIndex + (opensCall fromSlice msg).toNat)
  | stopped (event : SseEvent) (hloud : isQuiet fromSlice s.includeUsage msg = false)
      (hkind : kind event = .error) (hplain : msg.isException = false)
      (h : handleMessage fromSlice s msg = .stopped event s.fail)
      (hunsound : isSound fromSlice msg = false)
  | overflow (hloud : isQuiet fromSlice s.includeUsage msg = false)
      (h : handleMessage fromSlice s msg = .overflow)
      (hframe : msg.isException = false ∧ isSound fromSlice msg = true ∧
        overflows fromSlice s.streamState.toolCallIndex msg = true)

theorem noted_includeUsage : (s.noted msg).includeUsage = s.includeUsage := by
  rw [BedrockStreamingState.noted]
  split <;> rfl

theorem noted_of_plain (h : msg.isException = false) : s.noted msg = s := by
  rw [BedrockStreamingState.noted, if_neg (by rw [h]; exact Bool.false_ne_true)]

theorem handledAs (s : BedrockStreamingState) (msg : EventStreamMessage) :
    HandledAs fromSlice s msg := by
  by_cases hsuppressed : isSuppressed s.includeUsage msg = true
  · refine .quiet (by rw [isQuiet, hsuppressed, Bool.true_or]) ?_
    rw [handleMessage, noted_includeUsage, if_pos hsuppressed]
  rw [Bool.not_eq_true] at hsuppressed
  have hhandle : handleMessage fromSlice s msg = emitted (s.noted msg)
      (transformStreamEvent fromSlice (s.noted msg).model (s.noted msg).responseId
        (s.noted msg).streamState msg) := by
    rw [handleMessage, noted_includeUsage, if_neg (by rw [hsuppressed]; exact Bool.false_ne_true)]
  have hquiet : isQuiet fromSlice s.includeUsage msg =
      (!msg.isException && isSilent fromSlice msg) := by
    rw [isQuiet, hsuppressed, Bool.false_or]
  rcases hexception : msg.isException with _ | _
  · rw [hexception, Bool.not_false, Bool.true_and] at hquiet
    rcases @transformStreamEvent_spec fromSlice (s.noted msg).model (s.noted msg).responseId
      (s.noted msg).streamState msg hexception with ⟨hsilent, ht⟩ | ⟨hsilent, ht⟩
    · rw [ht] at hhandle
      exact .quiet (hquiet.trans hsilent) hhandle
    · have hloud := hquiet.trans hsilent
      rw [noted_of_plain hexception] at hhandle ht
      generalize transformStreamEvent fromSlice s.model s.responseId s.streamState msg = r
        at hhandle ht
      cases ht with
      | refused error unsound =>
        exact .stopped _ hloud (kind_sseError _ _) hexception hhandle unsound
      | overflow hsound hover => exact .overflow hloud hhandle ⟨hexception, hsound, hover⟩
      | chunk value streamState plain hsound fits opened =>
        refine .shown value streamState hloud ?_ (by rw [noted_of_plain hexception]; exact hhandle)
          (.inr ⟨hexception, hsound, fits, opened⟩)
        rw [kind, plain, hexception]
        rfl
  · rw [transformStreamEvent, if_pos hexception] at hhandle
    refine .shown _ _ (by rw [hquiet, hexception]; rfl) ?_ hhandle
      (.inl ⟨hexception, by rw [BedrockStreamingState.noted, if_pos hexception]; rfl⟩)
    rw [hexception]
    rfl

end Handling

section Batches

inductive Passes (fromSlice : PayloadReader) :
    BedrockStreamingState → List EventStreamMessage → List SseEvent → BedrockStreamingState → Prop
  | nil (s) : Passes fromSlice s [] [] s
  | cons {s s' s'' msg rest events more} (h : handleMessage fromSlice s msg = .next events s')
      (hrest : Passes fromSlice s' rest more s'') :
      Passes fromSlice s (msg :: rest) (events ++ more) s''

variable {s s' s'' : BedrockStreamingState} {msgs : List EventStreamMessage}
  {out : List SseEvent}

theorem Passes.append {pre post : List EventStreamMessage} {first second : List SseEvent}
    (h : Passes fromSlice s pre first s') (h' : Passes fromSlice s' post second s'') :
    Passes fromSlice s (pre ++ post) (first ++ second) s'' := by
  induction h with
  | nil s => exact h'
  | cons hone hrest ih =>
    rw [cons_append, append_assoc]
    exact .cons hone (ih h')

theorem Passes.translate (h : Passes fromSlice s msgs out s') (rest : List EventStreamMessage) :
    appendTranslatedStreamEvents fromSlice s (msgs ++ rest) =
      (appendTranslatedStreamEvents fromSlice s' rest).map
        fun (more, s'') => (out ++ more, s'') := by
  induction h with
  | nil s =>
    rw [nil_append]
    rcases appendTranslatedStreamEvents fromSlice s rest with _ | ⟨more, s''⟩ <;> rfl
  | cons hone hrest ih =>
    rw [cons_append, appendTranslatedStreamEvents, hone]
    dsimp only
    rw [ih, Option.map_map]
    rcases appendTranslatedStreamEvents fromSlice _ rest with _ | ⟨more, s''⟩
    · rfl
    · simp only [Option.map_some, Function.comp_apply, append_assoc]

theorem Passes.translate_self (h : Passes fromSlice s msgs out s') :
    appendTranslatedStreamEvents fromSlice s msgs = some (out, s') := by
  simpa [appendTranslatedStreamEvents] using h.translate []

theorem Passes.translate_stopped {msg : EventStreamMessage} {event : SseEvent}
    (h : Passes fromSlice s msgs out s')
    (hstop : handleMessage fromSlice s' msg = .stopped event s'')
    (rest : List EventStreamMessage) :
    appendTranslatedStreamEvents fromSlice s (msgs ++ msg :: rest) =
      some (out ++ [event], s'') := by
  rw [h.translate, appendTranslatedStreamEvents, hstop]
  rfl

theorem Passes.translate_overflow {msg : EventStreamMessage} (h : Passes fromSlice s msgs out s')
    (hover : handleMessage fromSlice s' msg = .overflow) (rest : List EventStreamMessage) :
    appendTranslatedStreamEvents fromSlice s (msgs ++ msg :: rest) = none := by
  rw [h.translate, appendTranslatedStreamEvents, hover]
  rfl

/-- A batch passes, or has a first frame that does not. -/
theorem passes_or (s : BedrockStreamingState) (msgs : List EventStreamMessage) :
    (∃ out s', Passes fromSlice s msgs out s') ∨
    ∃ pre msg post out s', msgs = pre ++ msg :: post ∧ Passes fromSlice s pre out s' ∧
      ((∃ event, kind event = .error ∧ handleMessage fromSlice s' msg = .stopped event s'.fail) ∨
        handleMessage fromSlice s' msg = .overflow) := by
  induction msgs generalizing s with
  | nil => exact .inl ⟨[], s, .nil s⟩
  | cons msg rest ih =>
    have hnext : ∀ events s', handleMessage fromSlice s msg = .next events s' →
        (∃ out s'', Passes fromSlice s (msg :: rest) out s'') ∨
        ∃ pre msg' post out s'', msg :: rest = pre ++ msg' :: post ∧
          Passes fromSlice s pre out s'' ∧
          ((∃ event, kind event = .error ∧
              handleMessage fromSlice s'' msg' = .stopped event s''.fail) ∨
            handleMessage fromSlice s'' msg' = .overflow) := by
      intro events s' hone
      rcases ih s' with ⟨out, s'', hrest⟩ | ⟨pre, msg', post, out, s'', rfl, hpre, hend⟩
      · exact .inl ⟨_, s'', .cons hone hrest⟩
      · exact .inr ⟨msg :: pre, msg', post, _, s'', rfl, .cons hone hpre, hend⟩
    cases @handledAs fromSlice s msg with
    | quiet _ h => exact hnext _ _ h
    | shown _ _ _ _ h => exact hnext _ _ h
    | stopped event _ hkind _ h =>
      exact .inr ⟨[], msg, rest, [], s, rfl, .nil s, .inl ⟨event, hkind, h⟩⟩
    | overflow _ h => exact .inr ⟨[], msg, rest, [], s, rfl, .nil s, .inr h⟩

structure Keeps (s s' : BedrockStreamingState) : Prop where
  decoder : s'.decoder = s.decoder
  includeUsage : s'.includeUsage = s.includeUsage
  failed : s.failed = true → s'.failed = true

theorem Keeps.refl (s : BedrockStreamingState) : Keeps s s := ⟨rfl, rfl, id⟩

theorem Keeps.trans (h : Keeps s s') (h' : Keeps s' s'') : Keeps s s'' :=
  ⟨h'.decoder.trans h.decoder, h'.includeUsage.trans h.includeUsage, h'.failed ∘ h.failed⟩

theorem keeps_noted (s : BedrockStreamingState) (msg : EventStreamMessage) :
    Keeps s (s.noted msg) := by
  rw [BedrockStreamingState.noted]
  split
  · exact ⟨rfl, rfl, fun _ => rfl⟩
  · exact .refl s

theorem keeps_next {events : List SseEvent} {msg : EventStreamMessage}
    (h : handleMessage fromSlice s msg = .next events s') : Keeps s s' := by
  cases @handledAs fromSlice s msg with
  | quiet _ h' =>
    cases h.symm.trans h'
    exact keeps_noted s msg
  | shown _ _ _ _ h' =>
    cases h.symm.trans h'
    exact (keeps_noted s msg).trans ⟨rfl, rfl, id⟩
  | stopped _ _ _ _ h' => cases h.symm.trans h'
  | overflow _ h' => cases h.symm.trans h'

theorem Passes.keeps (h : Passes fromSlice s msgs out s') : Keeps s s' := by
  induction h with
  | nil s => exact .refl s
  | cons hone _ ih => exact (keeps_next hone).trans ih

theorem keeps_translate (h : appendTranslatedStreamEvents fromSlice s msgs = some (out, s')) :
    Keeps s s' := by
  rcases @passes_or fromSlice s msgs with ⟨out', s₁, hpass⟩ | ⟨pre, msg, post, out', s₁, rfl, hpass,
    hend⟩
  · cases hpass.translate_self.symm.trans h
    exact hpass.keeps
  · rcases hend with ⟨event, -, hstop⟩ | hover
    · cases (hpass.translate_stopped hstop post).symm.trans h
      exact hpass.keeps.trans ⟨rfl, rfl, fun _ => rfl⟩
    · cases (hpass.translate_overflow hover post).symm.trans h

theorem passes_of_quiet (h : ∀ msg ∈ msgs, isQuiet fromSlice s.includeUsage msg = true) :
    ∃ s', Passes fromSlice s msgs [] s' := by
  induction msgs generalizing s with
  | nil => exact ⟨s, .nil s⟩
  | cons msg rest ih =>
    have hfirst := h msg mem_cons_self
    have hone : handleMessage fromSlice s msg = .next [] (s.noted msg) := by
      cases @handledAs fromSlice s msg with
      | quiet _ hone => exact hone
      | shown _ _ hloud => exact absurd (hloud.symm.trans hfirst) Bool.false_ne_true
      | stopped _ hloud => exact absurd (hloud.symm.trans hfirst) Bool.false_ne_true
      | overflow hloud => exact absurd (hloud.symm.trans hfirst) Bool.false_ne_true
    have hrest : ∀ msg' ∈ rest, isQuiet fromSlice (s.noted msg).includeUsage msg' = true := by
      rw [noted_includeUsage]
      exact fun msg' hmem => h msg' (mem_cons_of_mem _ hmem)
    obtain ⟨s', hs'⟩ := ih hrest
    exact ⟨s', .cons hone hs'⟩

theorem stopped_fails {event : SseEvent} {msg : EventStreamMessage}
    (h : handleMessage fromSlice s msg = .stopped event s') : s' = s.fail := by
  cases @handledAs fromSlice s msg with
  | quiet _ h' => cases h.symm.trans h'
  | shown _ _ _ _ h' => cases h.symm.trans h'
  | stopped _ _ _ _ h' =>
    cases h.symm.trans h'
    rfl
  | overflow _ h' => cases h.symm.trans h'

theorem quiet_of_translate (h : appendTranslatedStreamEvents fromSlice s msgs = some ([], s')) :
    ∀ msg ∈ msgs, isQuiet fromSlice s.includeUsage msg = true := by
  induction msgs generalizing s with
  | nil => exact fun _ hmem => absurd hmem not_mem_nil
  | cons msg rest ih =>
    rw [appendTranslatedStreamEvents] at h
    cases @handledAs fromSlice s msg with
    | quiet hquiet hone =>
      rw [hone] at h
      obtain ⟨⟨more, s₁⟩, hrest, hmore⟩ := Option.map_eq_some_iff.mp h
      cases hmore
      have hlater := ih hrest
      rw [noted_includeUsage] at hlater
      intro msg' hmem
      rcases mem_cons.mp hmem with rfl | hmem
      · exact hquiet
      · exact hlater msg' hmem
    | shown value streamState _ _ hone =>
      rw [hone] at h
      obtain ⟨⟨more, s₁⟩, -, hmore⟩ := Option.map_eq_some_iff.mp h
      cases hmore
    | stopped event _ _ _ hone =>
      rw [hone] at h
      cases h
    | overflow _ hone =>
      rw [hone] at h
      cases h

theorem handleMessage_withDecoder (s : BedrockStreamingState) (d : EventStreamDecoder)
    (msg : EventStreamMessage) :
    handleMessage fromSlice (s.withDecoder d) msg =
      match handleMessage fromSlice s msg with
      | .next events s' => .next events (s'.withDecoder d)
      | .stopped event s' => .stopped event (s'.withDecoder d)
      | .overflow => .overflow := by
  have hnoted : (s.withDecoder d).noted msg = (s.noted msg).withDecoder d := by
    rw [BedrockStreamingState.noted, BedrockStreamingState.noted]
    split <;> rfl
  rw [handleMessage, handleMessage, hnoted]
  generalize s.noted msg = t
  have hsame : transformStreamEvent fromSlice (t.withDecoder d).model (t.withDecoder d).responseId
      (t.withDecoder d).streamState msg =
      transformStreamEvent fromSlice t.model t.responseId t.streamState msg := rfl
  have husage : (t.withDecoder d).includeUsage = t.includeUsage := rfl
  rw [hsame, husage]
  split
  · rfl
  · rcases transformStreamEvent fromSlice t.model t.responseId t.streamState msg with
      (error | _) | ⟨_ | value, streamState⟩ <;> rfl

theorem stopped_withDecoder {msg : EventStreamMessage} {event : SseEvent}
    (h : handleMessage fromSlice s msg = .stopped event s') (d : EventStreamDecoder) :
    handleMessage fromSlice (s.withDecoder d) msg = .stopped event (s'.withDecoder d) := by
  rw [handleMessage_withDecoder, h]

theorem overflow_withDecoder {msg : EventStreamMessage}
    (h : handleMessage fromSlice s msg = .overflow) (d : EventStreamDecoder) :
    handleMessage fromSlice (s.withDecoder d) msg = .overflow := by
  rw [handleMessage_withDecoder, h]

theorem Passes.withDecoder (h : Passes fromSlice s msgs out s') (d : EventStreamDecoder) :
    Passes fromSlice (s.withDecoder d) msgs out (s'.withDecoder d) := by
  induction h with
  | nil s => exact .nil _
  | cons hone _ ih =>
    refine .cons ?_ ih
    rw [handleMessage_withDecoder, hone]

end Batches

section Calls

def call (fromSlice : PayloadReader) (s : BedrockStreamingState) (chunk : Bytes) :
    Option (List SseEvent × BedrockStreamingState) :=
  decodeStreamEvents fromSlice (s.withDecoder (s.decoder.push chunk))

def feed (fromSlice : PayloadReader) : BedrockStreamingState → List Bytes → List SseEvent × Bool
  | s, [] => (closing s, true)
  | s, chunk :: rest =>
    match call fromSlice s chunk with
    | none => ([], false)
    | some (events, s') =>
      let (more, alive) := feed fromSlice s' rest
      (events ++ more, alive)

theorem respond_eq_feed (now maxFrameBytes : ℕ) (ctx : FilterContext) {chunks : List Bytes}
    (hchunks : chunks ≠ []) :
    respond fromSlice now maxFrameBytes ctx chunks =
      feed fromSlice (ctx.streaming.getD (ctx.begin now maxFrameBytes)) chunks := by
  induction chunks generalizing ctx with
  | nil => exact absurd rfl hchunks
  | cons chunk rest ih =>
    rcases rest with _ | ⟨chunk', rest⟩
    · rw [respond, translateStreamChunk, feed, call]
      dsimp only
      rcases decodeStreamEvents fromSlice _ with _ | ⟨events, s'⟩
      · rfl
      · simp only [Option.map_some, if_true, feed]
    · rw [respond, translateStreamChunk, feed, call]
      dsimp only
      rcases decodeStreamEvents fromSlice _ with _ | ⟨events, s'⟩
      · rfl
      · simp only [Option.map_some, Bool.false_eq_true, if_false,
          ih _ (cons_ne_nil chunk' rest), Option.getD_some]
      · exact cons_ne_nil chunk' rest

variable {s s' s₁ s₂ : BedrockStreamingState} {chunk : Bytes}

abbrev reader (s : BedrockStreamingState) := frameReader s.decoder.maxFrameLen

def withBuf (s : BedrockStreamingState) (buf : Bytes) : BedrockStreamingState :=
  s.withDecoder ⟨buf, s.decoder.maxFrameLen⟩

theorem call_waiting {msgs : List EventStreamMessage} {rest : Bytes}
    (h : drain (reader s).read (s.decoder.buf ++ chunk) = (msgs, .waiting rest)) :
    call fromSlice s chunk = appendTranslatedStreamEvents fromSlice (withBuf s rest) msgs := by
  have hdecode := decodeAll_eq_drain (s.decoder.push chunk)
  rw [show drain (readFrame (s.decoder.push chunk).maxFrameLen) (s.decoder.push chunk).buf =
    (msgs, .waiting rest) from h] at hdecode
  rw [call, decodeStreamEvents]
  rw [show (s.withDecoder (s.decoder.push chunk)).decoder = s.decoder.push chunk from rfl, hdecode]
  rfl

theorem call_bad {msgs : List EventStreamMessage} {e : DecodeError} {rest : Bytes}
    (h : drain (reader s).read (s.decoder.buf ++ chunk) = (msgs, .bad e rest)) :
    call fromSlice s chunk = some ([decodeError e], (withBuf s rest).fail) := by
  have hdecode := decodeAll_eq_drain (s.decoder.push chunk)
  rw [show drain (readFrame (s.decoder.push chunk).maxFrameLen) (s.decoder.push chunk).buf =
    (msgs, .bad e rest) from h] at hdecode
  rw [call, decodeStreamEvents]
  rw [show (s.withDecoder (s.decoder.push chunk)).decoder = s.decoder.push chunk from rfl, hdecode]
  rfl

theorem Passes.withBuf {msgs : List EventStreamMessage} {out : List SseEvent}
    (h : Passes fromSlice s msgs out s') (buf : Bytes) :
    Passes fromSlice (withBuf s buf) msgs out (withBuf s' buf) := by
  have hbuf := h.withDecoder ⟨buf, s.decoder.maxFrameLen⟩
  rw [← h.keeps.decoder] at hbuf
  nth_rewrite 1 [h.keeps.decoder] at hbuf
  exact hbuf

theorem reader_withBuf (h : Keeps s s') (buf : Bytes) : reader (withBuf s' buf) = reader s := by
  rw [reader, reader, ← h.decoder]
  rfl

theorem closing_failed (h : s.failed = true) : closing s = [] := by
  rw [closing, if_pos h]

theorem feed_none {rest : List Bytes} (h : call fromSlice s chunk = none) :
    feed fromSlice s (chunk :: rest) = ([], false) := by
  rw [feed, h]

theorem feed_some {rest : List Bytes} {events : List SseEvent}
    (h : call fromSlice s chunk = some (events, s')) :
    feed fromSlice s (chunk :: rest) =
      (events ++ (feed fromSlice s' rest).1, (feed fromSlice s' rest).2) := by
  rw [feed, h]

end Calls

section Example

open EventStreamRoundTrip

def startWire : WireMessage where
  headers := [⟨":message-type", .string "event", by decide +kernel,
      show (ascii "event").length ≤ 65535 by decide +kernel⟩,
    ⟨":event-type", .string "messageStart", eventType_fits,
      show (ascii "messageStart").length ≤ 65535 by decide +kernel⟩]
  payload := ascii "\x7b\x7d"
  frame_fits := by decide +kernel

def startFrame : Bytes := startWire.encode

def readEmptyObject : PayloadReader := fun bytes =>
  if bytes = ascii "\x7b\x7d" then .ok (.obj []) else .error "expected value"

def emptyPrelude : Bytes := List.replicate 12 0

def startMessage : EventStreamMessage :=
  ⟨[⟨":message-type", .string "event"⟩, ⟨":event-type", .string "messageStart"⟩],
    ascii "\x7b\x7d"⟩

variable {maxFrameLen : ℕ}

theorem readFrame_startFrame (hmax : 67 ≤ maxFrameLen) (x : Bytes) :
    readFrame maxFrameLen (startFrame ++ x) = .frame startMessage x := by
  have hlen : startWire.encode.length = 67 := by decide +kernel
  exact readFrame_encode (by rwa [hlen]) x

theorem drain_startFrame (hmax : 67 ≤ maxFrameLen) (x : Bytes) :
    drain (frameReader maxFrameLen).read (startFrame ++ x) =
      (startMessage :: (drain (frameReader maxFrameLen).read x).1,
        (drain (frameReader maxFrameLen).read x).2) := by
  apply drain_frame
  rw [frameReader_read]
  exact readFrame_startFrame hmax x

theorem drain_emptyPrelude (x : Bytes) :
    drain (frameReader maxFrameLen).read (emptyPrelude ++ x) =
      ([], .bad (.frameTooShort 0) x) := by
  have hfirst : u32At (emptyPrelude ++ x) 0 = 0 := u32At_append (by decide) x
  have hlen : preludeLen ≤ (emptyPrelude ++ x).length := by
    rw [length_append]
    exact Nat.le_add_right_of_le (by decide)
  have hread := @readFrame_short maxFrameLen _ hlen (by rw [hfirst]; decide)
  rw [hfirst, (take_drop_front (by rfl : emptyPrelude.length = preludeLen) x).2] at hread
  rw [← frameReader_read] at hread
  exact drain_bad hread

theorem handleMessage_startMessage (s : BedrockStreamingState) :
    ∃ value s', kind (.data value) = .plain ∧
      handleMessage fromSlice s startMessage = .next [.data value] s' ∧ Keeps s s' := by
  have hplain : startMessage.isException = false := by decide
  have htype : startMessage.eventType = some "messageStart" := by decide
  have hone : handleMessage fromSlice s startMessage =
      .next [.data (chunkBytes (context s.model s.responseId s.streamState)
        (.obj [("role", .str "assistant"), ("content", .str "")]) none none)]
        (s.withStreamState { s.streamState with roleEmitted := true }) := by
    rw [handleMessage, noted_of_plain hplain, isSuppressed, htype, transformStreamEvent, hplain,
      htype]
    rfl
  exact ⟨_, _, rfl, hone, ⟨rfl, rfl, id⟩⟩

theorem call_startFrame {s : BedrockStreamingState} (hbuf : s.decoder.buf = [])
    (hmax : 67 ≤ s.decoder.maxFrameLen) :
    ∃ value s', kind (.data value) = .plain ∧
      call fromSlice s startFrame = some ([.data value], s') ∧ s'.decoder = s.decoder ∧
      (s.failed = true → s'.failed = true) := by
  obtain ⟨value, s', hkind, hone, hkeeps⟩ :=
    @handleMessage_startMessage fromSlice (withBuf s [])
  have hdrain : drain (reader s).read (s.decoder.buf ++ startFrame) =
      ([startMessage], .waiting []) := by
    have hempty : drain (reader s).read [] = ([], .waiting []) := drain_waiting rfl
    have hfirst := drain_startFrame hmax []
    rw [hempty, append_nil] at hfirst
    rw [hbuf, nil_append]
    exact hfirst
  refine ⟨value, s', hkind, ?_, ?_, hkeeps.failed⟩
  · rw [call_waiting hdrain]
    exact (Passes.cons hone (.nil s')).translate_self
  · rw [hkeeps.decoder, withBuf, ← hbuf]
    rfl

end Example

section ChunkIndependence

def QuietBytes (fromSlice : PayloadReader) (s : BedrockStreamingState) (bytes : Bytes) : Prop :=
  ∃ msgs rest, drain (reader s).read bytes = (msgs, .waiting rest) ∧
    ∀ msg ∈ msgs, isQuiet fromSlice s.includeUsage msg = true

/-- A stream whose output does not depend on how it is cut: a bad frame has only quiet frames
before it and, wherever the decoder gave up on it, after it; a refused frame has only quiet frames
after it; a frame that overflows has only quiet frames before it. -/
structure Steady (fromSlice : PayloadReader) (s : BedrockStreamingState) (bytes : Bytes) :
    Prop where
  before_bad : ∀ {msgs e rest}, drain (reader s).read bytes = (msgs, .bad e rest) →
    ∀ msg ∈ msgs, isQuiet fromSlice s.includeUsage msg = true
  after_bad : ∀ {seen unseen msgs e rest}, bytes = seen ++ unseen →
    drain (reader s).read seen = (msgs, .bad e rest) → QuietBytes fromSlice s (rest ++ unseen)
  after_refused : ∀ {pre msg post rest out s₁ event s₂},
    drain (reader s).read bytes = (pre ++ msg :: post, .waiting rest) →
    Passes fromSlice s pre out s₁ → handleMessage fromSlice s₁ msg = .stopped event s₂ →
    ∀ msg ∈ post, isQuiet fromSlice s.includeUsage msg = true
  before_overflow : ∀ {pre msg post rest out s₁},
    drain (reader s).read bytes = (pre ++ msg :: post, .waiting rest) →
    Passes fromSlice s pre out s₁ → handleMessage fromSlice s₁ msg = .overflow →
    ∀ msg ∈ pre, isQuiet fromSlice s.includeUsage msg = true

variable {s s' s₁ s₂ : BedrockStreamingState} {bytes chunk later : Bytes}
/-- Frames that cannot stop anything leave nothing to cut. -/
theorem QuietBytes.steady (h : QuietBytes fromSlice s bytes) : Steady fromSlice s bytes := by
  obtain ⟨msgs, rest, hdrain, hquiet⟩ := h
  have hloud : ∀ {pre msg post rest' out s₁},
      drain (reader s).read bytes = (pre ++ msg :: post, .waiting rest') →
      Passes fromSlice s pre out s₁ →
      ∃ events s₂, handleMessage fromSlice s₁ msg = .next events s₂ := by
    intro pre msg post rest' out s₁ hdrain' hpass
    cases hdrain.symm.trans hdrain'
    have hmsg := hquiet msg (mem_append_right _ mem_cons_self)
    rw [← hpass.keeps.includeUsage] at hmsg
    cases @handledAs fromSlice s₁ msg with
    | quiet _ h => exact ⟨_, _, h⟩
    | shown _ _ hloud => exact absurd (hloud.symm.trans hmsg) Bool.false_ne_true
    | stopped _ hloud => exact absurd (hloud.symm.trans hmsg) Bool.false_ne_true
    | overflow hloud => exact absurd (hloud.symm.trans hmsg) Bool.false_ne_true
  refine ⟨?_, ?_, ?_, ?_⟩
  · intro msgs' e rest' hdrain'
    cases hdrain.symm.trans hdrain'
  · rintro seen unseen msgs' e rest' rfl hseen
    obtain ⟨rest'', hall⟩ := drain_stuck hseen unseen
    cases hdrain.symm.trans hall
  · intro pre msg post rest' out s₁ event s₂ hdrain' hpass hstop
    obtain ⟨events, s₃, hnext⟩ := hloud hdrain' hpass
    cases hnext.symm.trans hstop
  · intro pre msg post rest' out s₁ hdrain' hpass hover
    obtain ⟨events, s₃, hnext⟩ := hloud hdrain' hpass
    cases hnext.symm.trans hover

theorem QuietBytes.congr (h : QuietBytes fromSlice s bytes)
    (hlen : s'.decoder.maxFrameLen = s.decoder.maxFrameLen)
    (husage : s'.includeUsage = s.includeUsage) : QuietBytes fromSlice s' bytes := by
  obtain ⟨msgs, rest, hdrain, hquiet⟩ := h
  refine ⟨msgs, rest, ?_, ?_⟩
  · rw [reader, hlen]
    exact hdrain
  · rw [husage]
    exact hquiet

theorem drained_front {msgs : List EventStreamMessage} {rest : Bytes} {maxFrameLen : ℕ}
    (h : drain (frameReader maxFrameLen).read bytes = (msgs, .waiting rest)) :
    ∃ front, bytes = front ++ rest ∧ ∀ x, drain (frameReader maxFrameLen).read (front ++ x) =
      (msgs ++ (drain (frameReader maxFrameLen).read x).1,
        (drain (frameReader maxFrameLen).read x).2) := by
  obtain ⟨front, tail, hbytes, hfront, htail⟩ :=
    drain_split (show drain (frameReader maxFrameLen).read bytes = (msgs ++ [], .waiting rest) by
      rw [append_nil, h])
  have hrest : tail = rest := by
    rcases hread : (frameReader maxFrameLen).read tail with _ | ⟨m, r⟩ | ⟨e, r⟩
    · rw [drain_waiting hread] at htail
      cases htail
      rfl
    · rw [drain_frame hread] at htail
      cases htail
    · rw [drain_bad hread] at htail
      cases htail
  exact ⟨front, hrest ▸ hbytes, hfront⟩

/-- After frames that passed, the rest of a steady stream is steady. -/
theorem Steady.rest {msgs : List EventStreamMessage} {rest : Bytes} {out : List SseEvent}
    (h : Steady fromSlice s (bytes ++ later))
    (hdrain : drain (reader s).read bytes = (msgs, .waiting rest))
    (hpass : Passes fromSlice s msgs out s₁) :
    Steady fromSlice (withBuf s₁ rest) (rest ++ later) := by
  obtain ⟨front, rfl, hfront⟩ := drained_front hdrain
  rw [append_assoc] at h
  have hlen : (withBuf s₁ rest).decoder.maxFrameLen = s.decoder.maxFrameLen :=
    show s₁.decoder.maxFrameLen = s.decoder.maxFrameLen by rw [hpass.keeps.decoder]
  have husage : (withBuf s₁ rest).includeUsage = s.includeUsage := hpass.keeps.includeUsage
  have hpasses : ∀ {pre out' s₂}, Passes fromSlice (withBuf s₁ rest) pre out' s₂ →
      Passes fromSlice s (msgs ++ pre) (out ++ out') (s₂.withDecoder s₁.decoder) := by
    intro pre out' s₂ hpre
    exact hpass.append (hpre.withDecoder s₁.decoder)
  have hwhole : ∀ {ms stop}, drain (reader s).read (rest ++ later) = (ms, stop) →
      drain (reader s).read (front ++ (rest ++ later)) = (msgs ++ ms, stop) := by
    intro ms stop hms
    rw [hfront, hms]
  refine ⟨?_, ?_, ?_, ?_⟩
  · intro ms e r hbad
    rw [reader, hlen] at hbad
    rw [husage]
    intro msg hmem
    exact h.before_bad (hwhole hbad) msg (mem_append_right _ hmem)
  · intro seen unseen ms e r hsplit hbad
    rw [reader, hlen] at hbad
    have hall : front ++ (rest ++ later) = (front ++ seen) ++ unseen := by
      rw [hsplit, append_assoc]
    have hseen : drain (reader s).read (front ++ seen) = (msgs ++ ms, .bad e r) := by
      rw [hfront, hbad]
    exact (h.after_bad hall hseen).congr hlen husage
  · intro pre msg post r out' s₂ event s₃ hdrain' hpre hstop
    rw [reader, hlen] at hdrain'
    have hall := hwhole hdrain'
    rw [← append_assoc msgs] at hall
    rw [husage]
    exact h.after_refused hall (hpasses hpre) (stopped_withDecoder hstop _)
  · intro pre msg post r out' s₂ hdrain' hpre hover
    rw [reader, hlen] at hdrain'
    have hall := hwhole hdrain'
    rw [← append_assoc msgs] at hall
    rw [husage]
    intro msg' hmem
    exact h.before_overflow hall (hpasses hpre) (overflow_withDecoder hover _) msg'
      (mem_append_right _ hmem)

theorem feed_quiet (hfailed : s.failed = true)
    (h : QuietBytes fromSlice s (s.decoder.buf ++ later)) :
    feed fromSlice s [later] = ([], true) := by
  obtain ⟨msgs, rest, hdrain, hquiet⟩ := h
  obtain ⟨s₁, hpass⟩ := @passes_of_quiet fromSlice (withBuf s rest) msgs hquiet
  have hcall := (@call_waiting fromSlice _ _ _ _ hdrain).trans hpass.translate_self
  rw [feed_some hcall, feed, closing_failed (hpass.keeps.failed hfailed)]
  rfl

def Merges (fromSlice : PayloadReader) (s : BedrockStreamingState) (chunk later : Bytes) : Prop :=
  feed fromSlice s [chunk, later] = feed fromSlice s [chunk ++ later] ∧
    ∀ {events s'}, call fromSlice s chunk = some (events, s') →
      Steady fromSlice s' (s'.decoder.buf ++ later)

theorem feed_bad {msgs : List EventStreamMessage} {e : DecodeError} {rest : Bytes}
    (h : drain (reader s).read (s.decoder.buf ++ chunk) = (msgs, .bad e rest)) :
    feed fromSlice s [chunk] = ([decodeError e], true) := by
  rw [feed_some (call_bad h), feed,
    closing_failed (show (withBuf s rest).fail.failed = true from rfl)]
  rfl

theorem Passes.out_eq_nil {msgs : List EventStreamMessage} {out : List SseEvent}
    (h : Passes fromSlice s msgs out s')
    (hquiet : ∀ msg ∈ msgs, isQuiet fromSlice s.includeUsage msg = true) : out = [] := by
  obtain ⟨s₁, hpass⟩ := passes_of_quiet hquiet
  cases hpass.translate_self.symm.trans h.translate_self
  rfl

theorem next_of_quiet {msg : EventStreamMessage}
    (h : isQuiet fromSlice s.includeUsage msg = true) :
    handleMessage fromSlice s msg = .next [] (s.noted msg) := by
  cases @handledAs fromSlice s msg with
  | quiet _ hone => exact hone
  | shown _ _ hloud => exact absurd (hloud.symm.trans h) Bool.false_ne_true
  | stopped _ hloud => exact absurd (hloud.symm.trans h) Bool.false_ne_true
  | overflow hloud => exact absurd (hloud.symm.trans h) Bool.false_ne_true

theorem merges_bad {msgs : List EventStreamMessage} {e : DecodeError} {rest : Bytes}
    (h : Steady fromSlice s (s.decoder.buf ++ chunk ++ later))
    (hdrain : drain (reader s).read (s.decoder.buf ++ chunk) = (msgs, .bad e rest)) :
    Merges fromSlice s chunk later := by
  obtain ⟨rest', hall⟩ := drain_stuck hdrain later
  rw [append_assoc] at hall
  have hcall := @call_bad fromSlice _ _ _ _ _ hdrain
  have hquiet : QuietBytes fromSlice (withBuf s rest).fail (rest ++ later) :=
    (h.after_bad rfl hdrain).congr rfl rfl
  refine ⟨?_, ?_⟩
  · rw [feed_some hcall, feed_quiet rfl hquiet, feed_bad hall]
    rfl
  · intro events s' hsome
    cases hcall.symm.trans hsome
    exact hquiet.steady

theorem Steady.silent_before_none {msgs msgs' : List EventStreamMessage} {rest : Bytes}
    {out : List SseEvent} (h : Steady fromSlice s bytes)
    (hdrain : drain (reader s).read bytes = (msgs ++ msgs', .waiting rest))
    (hpass : Passes fromSlice s msgs out s₁)
    (hnone : appendTranslatedStreamEvents fromSlice (withBuf s₁ rest) msgs' = none) :
    out = [] := by
  rcases @passes_or fromSlice (withBuf s₁ rest) msgs' with ⟨out', s₂, hpass'⟩ | ⟨pre, msg, post,
    out', s₂, rfl, hpass', ⟨event, -, hstop⟩ | hover⟩
  · cases hpass'.translate_self.symm.trans hnone
  · cases (hpass'.translate_stopped hstop post).symm.trans hnone
  · rw [← append_assoc] at hdrain
    have hboth := hpass.append (hpass'.withDecoder s₁.decoder)
    have hquiet := h.before_overflow hdrain hboth (overflow_withDecoder hover _)
    exact hpass.out_eq_nil fun msg hmem => hquiet msg (mem_append_left _ hmem)

theorem merges_passing {msgs : List EventStreamMessage} {rest : Bytes} {out : List SseEvent}
    (h : Steady fromSlice s (s.decoder.buf ++ chunk ++ later))
    (hdrain : drain (reader s).read (s.decoder.buf ++ chunk) = (msgs, .waiting rest))
    (hpass : Passes fromSlice s msgs out s₁) : Merges fromSlice s chunk later := by
  have hall := drain_append hdrain later
  have hreader := reader_withBuf hpass.keeps rest
  have hcall : call fromSlice s chunk = some (out, withBuf s₁ rest) :=
    (call_waiting hdrain).trans (hpass.withBuf rest).translate_self
  refine ⟨?_, ?_⟩
  · rw [feed_some hcall]
    rcases hlater : drain (reader s).read (rest ++ later) with ⟨msgs', r | ⟨e, r⟩⟩
    · rw [hlater, append_assoc] at hall
      have hone : call fromSlice s (chunk ++ later) =
          (appendTranslatedStreamEvents fromSlice (withBuf s₁ r) msgs').map
            fun (more, s₂) => (out ++ more, s₂) :=
        (call_waiting hall).trans ((hpass.withBuf r).translate msgs')
      have htwo : call fromSlice (withBuf s₁ rest) later =
          appendTranslatedStreamEvents fromSlice (withBuf s₁ r) msgs' := by
        rw [← hreader] at hlater
        exact call_waiting hlater
      rcases hsecond : appendTranslatedStreamEvents fromSlice (withBuf s₁ r) msgs' with
        _ | ⟨more, s₂⟩
      · rw [hsecond] at hone htwo
        have hout : out = [] := by
          rw [← append_assoc] at hall
          exact h.silent_before_none hall hpass hsecond
        rw [feed_none htwo, feed_none hone, hout]
        rfl
      · rw [hsecond] at hone htwo
        rw [feed_some htwo, feed_some hone]
        dsimp only [feed]
        rw [append_assoc]
    · rw [hlater, append_assoc] at hall
      rw [← hreader] at hlater
      have hout : out = [] := by
        rw [← append_assoc] at hall
        exact hpass.out_eq_nil fun msg hmem => h.before_bad hall msg (mem_append_left _ hmem)
      rw [feed_bad hall, feed_bad hlater, hout]
      rfl
  · intro events s' hsome
    cases hcall.symm.trans hsome
    exact h.rest hdrain hpass

theorem merges_halting {pre post : List EventStreamMessage} {msg : EventStreamMessage}
    {rest : Bytes} {out : List SseEvent}
    (h : Steady fromSlice s (s.decoder.buf ++ chunk ++ later))
    (hdrain : drain (reader s).read (s.decoder.buf ++ chunk) = (pre ++ msg :: post, .waiting rest))
    (hpass : Passes fromSlice s pre out s₁)
    (hend : (∃ event, kind event = .error ∧
        handleMessage fromSlice s₁ msg = .stopped event s₁.fail) ∨
      handleMessage fromSlice s₁ msg = .overflow) : Merges fromSlice s chunk later := by
  have hall := drain_append hdrain later
  rcases hlater : drain (reader s).read (rest ++ later) with ⟨msgs', r | ⟨e, r⟩⟩
  · rw [hlater, append_assoc] at hall
    have hwhole : drain (reader s).read (s.decoder.buf ++ (chunk ++ later)) =
        (pre ++ msg :: (post ++ msgs'), .waiting r) := by
      rw [hall, append_assoc, cons_append]
    rcases hend with ⟨event, -, hstop⟩ | hover
    · have hone : call fromSlice s (chunk ++ later) = some (out ++ [event], (withBuf s₁ r).fail) :=
        (call_waiting hwhole).trans
          ((hpass.withBuf r).translate_stopped (stopped_withDecoder hstop _) _)
      have hcall : call fromSlice s chunk = some (out ++ [event], (withBuf s₁ rest).fail) :=
        (call_waiting hdrain).trans
          ((hpass.withBuf rest).translate_stopped (stopped_withDecoder hstop _) _)
      have hquiet : QuietBytes fromSlice (withBuf s₁ rest).fail (rest ++ later) := by
        refine ⟨msgs', r, ?_, ?_⟩
        · rw [← reader_withBuf hpass.keeps rest] at hlater
          exact hlater
        · intro msg' hmem
          have hafter := h.after_refused (by rw [append_assoc]; exact hwhole) hpass hstop msg'
            (mem_append_right _ hmem)
          rw [← hpass.keeps.includeUsage] at hafter
          exact hafter
      refine ⟨?_, ?_⟩
      · rw [feed_some hcall, feed_quiet rfl hquiet, feed_some hone, feed, closing_failed rfl]
      · intro events s' hsome
        cases hcall.symm.trans hsome
        exact hquiet.steady
    · have hone : call fromSlice s (chunk ++ later) = none :=
        (call_waiting hwhole).trans
          ((hpass.withBuf r).translate_overflow (overflow_withDecoder hover _) _)
      have hcall : call fromSlice s chunk = none :=
        (call_waiting hdrain).trans
          ((hpass.withBuf rest).translate_overflow (overflow_withDecoder hover _) _)
      refine ⟨by rw [feed_none hcall, feed_none hone], ?_⟩
      intro events s' hsome
      cases hcall.symm.trans hsome
  · -- A bad frame later on leaves no room for a frame that halts.
    rw [hlater] at hall
    have hquiet := h.before_bad hall msg
      (mem_append_left _ (mem_append_right _ mem_cons_self))
    rw [← hpass.keeps.includeUsage] at hquiet
    have hnext := next_of_quiet hquiet
    rcases hend with ⟨event, -, hstop⟩ | hover
    · cases hnext.symm.trans hstop
    · cases hnext.symm.trans hover

/-- Two chunks of a steady stream do as one, and what is left is steady. -/
theorem Steady.merge (h : Steady fromSlice s (s.decoder.buf ++ (chunk ++ later))) :
    Merges fromSlice s chunk later := by
  rw [← append_assoc] at h
  rcases hdrain : drain (reader s).read (s.decoder.buf ++ chunk) with ⟨msgs, rest | ⟨e, rest⟩⟩
  · rcases @passes_or fromSlice s msgs with ⟨out, s₁, hpass⟩ | ⟨pre, msg, post, out, s₁, rfl, hpass,
      hend⟩
    · exact merges_passing h hdrain hpass
    · exact merges_halting h hdrain hpass hend
  · exact merges_bad h hdrain

/-- However a steady stream is cut, it does as if it came in one chunk. -/
theorem Steady.feed_eq {chunks : List Bytes} (hchunks : chunks ≠ [])
    (h : Steady fromSlice s (s.decoder.buf ++ chunks.flatten)) :
    feed fromSlice s chunks = feed fromSlice s [chunks.flatten] := by
  induction chunks generalizing s with
  | nil => exact absurd rfl hchunks
  | cons chunk rest ih =>
    rcases rest with _ | ⟨chunk', rest⟩
    · rw [flatten_cons, flatten_nil, append_nil]
    · rw [flatten_cons] at h ⊢
      obtain ⟨hmerge, hsteady⟩ := h.merge
      rw [← hmerge]
      rcases hcall : call fromSlice s chunk with _ | ⟨events, s'⟩
      · rw [feed_none hcall, feed_none hcall]
      · rw [feed_some hcall, feed_some hcall, ih (cons_ne_nil _ _) (hsteady hcall)]

/-- What a client sees: the bytes that were sent, and whether the stream came to its end. -/
def sent (r : List SseEvent × Bool) : Bytes × Bool := (r.1.flatMap SseEvent.wire, r.2)

theorem eq_nil_of_sent {out events : List SseEvent} {alive alive' : Bool}
    (h : sent (out ++ events, alive) = sent (events, alive')) : out = [] ∧ alive = alive' := by
  obtain ⟨hbytes, halive⟩ := Prod.ext_iff.mp h
  dsimp only [sent] at hbytes halive
  rw [flatMap_append] at hbytes
  exact ⟨eq_nil_of_flatMap_wire (append_left_eq_self.mp hbytes), halive⟩

theorem sent_append {events out : List SseEvent} {alive alive' : Bool}
    (h : sent (events ++ out, alive) = sent (events, alive')) : out = [] ∧ alive = alive' := by
  obtain ⟨hbytes, halive⟩ := Prod.ext_iff.mp h
  dsimp only [sent] at hbytes halive
  rw [flatMap_append] at hbytes
  exact ⟨eq_nil_of_flatMap_wire (append_right_eq_self.mp hbytes), halive⟩

/-- The bytes of the first frames of a stream, and those after them. -/
theorem cut_after {maxFrameLen : ℕ} {pre post : List EventStreamMessage}
    {stop : Stop UInt8 DecodeError}
    (h : drain (frameReader maxFrameLen).read bytes = (pre ++ post, stop)) :
    ∃ seen unseen, bytes = seen ++ unseen ∧
      drain (frameReader maxFrameLen).read seen = (pre, .waiting []) ∧
      drain (frameReader maxFrameLen).read unseen = (post, stop) := by
  obtain ⟨seen, unseen, hbytes, hseen, hunseen⟩ := drain_split h
  refine ⟨seen, unseen, hbytes, ?_, hunseen⟩
  have hempty : drain (frameReader maxFrameLen).read [] = ([], .waiting []) := drain_waiting rfl
  have hfront := hseen []
  rw [hempty, append_nil, append_nil] at hfront
  exact hfront

section Necessity

variable (hbuf : s.decoder.buf = [])

include hbuf

theorem call_front {msgs : List EventStreamMessage} {rest : Bytes}
    (h : drain (reader s).read chunk = (msgs, .waiting rest)) :
    call fromSlice s chunk = appendTranslatedStreamEvents fromSlice (withBuf s rest) msgs :=
  call_waiting (by rw [hbuf, nil_append, h])

theorem feed_front_bad {msgs : List EventStreamMessage} {e : DecodeError} {rest : Bytes}
    (h : drain (reader s).read chunk = (msgs, .bad e rest)) :
    feed fromSlice s [chunk] = ([decodeError e], true) :=
  feed_bad (by rw [hbuf, nil_append, h])

variable (hcuts : ∀ seen unseen, bytes = seen ++ unseen →
  sent (feed fromSlice s [seen, unseen]) = sent (feed fromSlice s [bytes]))

include hcuts

theorem quiet_before_bad {msgs : List EventStreamMessage} {e : DecodeError} {rest : Bytes}
    (h : drain (reader s).read bytes = (msgs, .bad e rest)) :
    ∀ msg ∈ msgs, isQuiet fromSlice s.includeUsage msg = true := by
  obtain ⟨seen, unseen, hbytes, hseen, hunseen⟩ :=
    cut_after (show drain (reader s).read bytes = (msgs ++ [], .bad e rest) by
      rw [append_nil, h])
  have hcut := hcuts seen unseen hbytes
  rw [feed_front_bad hbuf h] at hcut
  have hcall := @call_front fromSlice _ _ hbuf _ _ hseen
  rcases hfirst : appendTranslatedStreamEvents fromSlice (withBuf s []) msgs with _ | ⟨out, s₁⟩
  · rw [hfirst] at hcall
    rw [feed_none hcall] at hcut
    cases hcut
  · rw [hfirst] at hcall
    have hkeeps := keeps_translate hfirst
    have hreader : reader s₁ = reader s := by
      rw [reader, hkeeps.decoder]
      rfl
    have hlast : feed fromSlice s₁ [unseen] = ([decodeError e], true) :=
      feed_front_bad (by rw [hkeeps.decoder]; rfl) (by rw [hreader]; exact hunseen)
    rw [feed_some hcall, hlast] at hcut
    rw [(eq_nil_of_sent hcut).1] at hfirst
    exact quiet_of_translate (s := withBuf s []) hfirst

omit hbuf in
/-- Once a stream has failed as it does in one chunk, only quiet frames may follow. -/
theorem quiet_of_failed {seen unseen : Bytes} {events : List SseEvent}
    (hbytes : bytes = seen ++ unseen) (hcall : call fromSlice s seen = some (events, s₁))
    (hone : feed fromSlice s [bytes] = (events, true))
    (hlen : s₁.decoder.maxFrameLen = s.decoder.maxFrameLen)
    (husage : s₁.includeUsage = s.includeUsage) :
    QuietBytes fromSlice s (s₁.decoder.buf ++ unseen) := by
  have hcut := hcuts seen unseen hbytes
  rw [hone, feed_some hcall] at hcut
  obtain ⟨hnothing, halive⟩ := sent_append hcut
  have hreader : reader s₁ = reader s := by rw [reader, hlen]
  rcases hdrain : drain (reader s₁).read (s₁.decoder.buf ++ unseen) with ⟨msgs, r | ⟨e, r⟩⟩
  · have hcall' := @call_waiting fromSlice _ _ _ _ hdrain
    rcases hsecond : appendTranslatedStreamEvents fromSlice (withBuf s₁ r) msgs with _ | ⟨out, s₂⟩
    · rw [hsecond] at hcall'
      rw [feed_none hcall'] at halive
      cases halive
    · rw [hsecond] at hcall'
      rw [feed_some hcall'] at hnothing
      rw [(append_eq_nil_iff.mp hnothing).1] at hsecond
      refine ⟨msgs, r, hreader ▸ hdrain, ?_⟩
      rw [← husage]
      exact quiet_of_translate (s := withBuf s₁ r) hsecond
  · rw [feed_bad hdrain] at hnothing
    cases hnothing

theorem steady_of_cuts : Steady fromSlice s bytes := by
  refine ⟨quiet_before_bad hbuf hcuts, ?_, ?_, ?_⟩
  · intro seen unseen msgs e rest hbytes hseen
    obtain ⟨rest', hall⟩ := drain_stuck hseen unseen
    rw [← hbytes] at hall
    have hcall : call fromSlice s seen = some ([decodeError e], (withBuf s rest).fail) :=
      call_bad (by rw [hbuf, nil_append, hseen])
    exact quiet_of_failed hcuts hbytes hcall (feed_front_bad hbuf hall) rfl rfl
  · intro pre msg post rest out s₁ event s₂ hdrain hpass hstop
    obtain ⟨seen, unseen, hbytes, hseen, hunseen⟩ :=
      cut_after (show drain (reader s).read bytes = ((pre ++ [msg]) ++ post, .waiting rest) by
        rw [hdrain, append_assoc, singleton_append])
    cases stopped_fails hstop
    have hcall : call fromSlice s seen = some (out ++ [event], (withBuf s₁ []).fail) :=
      (call_front hbuf hseen).trans
        ((hpass.withBuf []).translate_stopped (stopped_withDecoder hstop _) [])
    have hone : call fromSlice s bytes = some (out ++ [event], (withBuf s₁ rest).fail) :=
      (call_front hbuf hdrain).trans
        ((hpass.withBuf rest).translate_stopped (stopped_withDecoder hstop _) post)
    have hwhole : feed fromSlice s [bytes] = (out ++ [event], true) := by
      rw [feed_some hone, feed, closing_failed rfl, append_nil]
    have hlen : (withBuf s₁ []).fail.decoder.maxFrameLen = s.decoder.maxFrameLen :=
      show s₁.decoder.maxFrameLen = s.decoder.maxFrameLen by rw [hpass.keeps.decoder]
    obtain ⟨msgs, rest', hquiet, hmsgs⟩ :=
      quiet_of_failed hcuts hbytes hcall hwhole hlen hpass.keeps.includeUsage
    cases hunseen.symm.trans hquiet
    exact hmsgs
  · intro pre msg post rest out s₁ hdrain hpass hover
    obtain ⟨seen, unseen, hbytes, hseen, hunseen⟩ := cut_after hdrain
    have hcut := hcuts seen unseen hbytes
    have hcall := (@call_front fromSlice _ _ hbuf _ _ hseen).trans
      (hpass.withBuf []).translate_self
    have hone : call fromSlice s bytes = none :=
      (call_front hbuf hdrain).trans
        ((hpass.withBuf rest).translate_overflow (overflow_withDecoder hover _) post)
    rw [feed_none hone, feed_some hcall] at hcut
    have hnothing := eq_nil_of_flatMap_wire (congrArg Prod.fst hcut)
    rw [(append_eq_nil_iff.mp hnothing).1] at hpass
    exact quiet_of_translate hpass.translate_self

end Necessity

/-- A stream's output is the same for all cuts exactly if the stream is steady. -/
theorem chunking_immaterial_iff (fromSlice : PayloadReader) (now maxFrameBytes : ℕ)
    (model responseId includeUsage : Option String) (bytes : Bytes) :
    (∀ cuts cuts' : List Bytes, cuts ≠ [] → cuts' ≠ [] → cuts.flatten = bytes →
      cuts'.flatten = bytes →
      sent (respond fromSlice now maxFrameBytes ⟨model, responseId, includeUsage, none⟩ cuts) =
        sent (respond fromSlice now maxFrameBytes ⟨model, responseId, includeUsage, none⟩ cuts')) ↔
    Steady fromSlice
      (FilterContext.begin ⟨model, responseId, includeUsage, none⟩ now maxFrameBytes) bytes := by
  constructor
  · intro h
    refine steady_of_cuts rfl ?_
    intro seen unseen hbytes
    have hcut := h [seen, unseen] [bytes] (cons_ne_nil _ _) (cons_ne_nil _ _)
      (by simp [hbytes]) (by simp)
    rw [respond_eq_feed _ _ _ (cons_ne_nil _ _), respond_eq_feed _ _ _ (cons_ne_nil _ _)] at hcut
    exact hcut
  · intro h cuts cuts' hcuts hcuts' hflat hflat'
    have hone : ∀ chunks : List Bytes, chunks ≠ [] → chunks.flatten = bytes →
        respond fromSlice now maxFrameBytes ⟨model, responseId, includeUsage, none⟩ chunks =
          feed fromSlice (FilterContext.begin ⟨model, responseId, includeUsage, none⟩ now
            maxFrameBytes) [bytes] := by
      intro chunks hne hchunks
      rw [respond_eq_feed _ _ _ hne, ← hchunks]
      rw [← hchunks] at h
      exact h.feed_eq hne
    rw [hone cuts hcuts hflat, hone cuts' hcuts' hflat']

/-- A bad frame takes the frame before it along if both arrive in one chunk. -/
theorem shared_batch_drops_frame :
    sent (respond readEmptyObject 0 defaultMaxBodyBytes ⟨some "m", none, none, none⟩
        [startFrame, emptyPrelude]) ≠
      sent (respond readEmptyObject 0 defaultMaxBodyBytes ⟨some "m", none, none, none⟩
        [startFrame ++ emptyPrelude]) := by
  intro hsame
  rw [respond_eq_feed _ _ _ (cons_ne_nil _ _), respond_eq_feed _ _ _ (cons_ne_nil _ _)] at hsame
  generalize hs : (FilterContext.mk (some "m") none none none).streaming.getD _ = s at hsame
  have hbuf : s.decoder.buf = [] := by rw [← hs]; rfl
  have hmax : 67 ≤ s.decoder.maxFrameLen := by rw [← hs]; decide
  obtain ⟨value, s', -, hcall, hdecoder, -⟩ := @call_startFrame readEmptyObject s hbuf hmax
  have hprelude := @drain_emptyPrelude s.decoder.maxFrameLen []
  rw [append_nil] at hprelude
  have hlast : feed readEmptyObject s' [emptyPrelude] =
      ([decodeError (.frameTooShort 0)], true) := by
    refine @feed_front_bad _ _ _ (by rw [hdecoder, hbuf]) [] _ [] ?_
    rw [reader, hdecoder]
    exact hprelude
  have hone : feed readEmptyObject s [startFrame ++ emptyPrelude] =
      ([decodeError (.frameTooShort 0)], true) := by
    refine @feed_front_bad _ _ _ hbuf [startMessage] _ [] ?_
    rw [drain_startFrame hmax, hprelude]
  rw [feed_some hcall, hlast, hone] at hsame
  exact absurd (eq_nil_of_sent hsame).1 (cons_ne_nil _ _)

end ChunkIndependence

end BedrockStream
