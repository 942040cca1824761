import PraxisAi.BedrockTranslation
import PraxisAi.FallibleSteps
import PraxisAi.ListSplits

/-! # Tool arguments over a provider stream

A tool's block opens with an index of its own, and the fragments of its arguments name that index.
The translation counts the blocks that have opened and sends every fragment to the last of them.
-/
namespace BedrockToolCalls

open List
open JsonValues FiniteTranslation EventStreamFrames BedrockTranslation FallibleSteps ListSplits

/-! ## What the client reads -/

def toolCallsOf (chunk : Json) : List Json :=
  (((((chunk.get? "choices").bind (Json.item? 0)).bind (Json.get? "delta")).bind
    (Json.get? "tool_calls")).bind Json.asArr).getD []

def callIndex (call : Json) : Option ℕ := (call.get? "index").bind asU64

def callId (call : Json) : Option String := (call.get? "id").bind Json.asStr

def callArguments (call : Json) : String :=
  (((call.get? "function").bind (Json.get? "arguments")).bind Json.asStr).getD ""

def concat (fragments : List String) : String := fragments.foldr (· ++ ·) ""

def argumentsOf (calls : List Json) (i : ℕ) : String :=
  concat ((calls.filter fun call => callIndex call = some i).map callArguments)

/-! ## What the provider sent -/

/-- A tool's block opens, a fragment of a tool's input comes, maybe with a text beside it, or
anything else. -/
inductive Sight where
  | start (block : Option ℕ) (toolUseId : String)
  | input (block : Option ℕ) (fragment : String) (besideText : Bool)
  | other
  deriving DecidableEq

def Sight.isStart : Sight → Bool
  | .start _ _ => true
  | _ => false

def contentBlockIndex (payload : Json) : Option ℕ := (payload.get? "contentBlockIndex").bind asU64

section Reading

variable (fromSlice : PayloadReader)

def sightOf (payload : Json) (eventType : Option String) : Sight :=
  if eventType = some "contentBlockStart" then
    match (((payload.get? "start").bind (Json.get? "toolUse")).bind
        (Json.get? "toolUseId")).bind Json.asStr with
    | some toolUseId => .start (contentBlockIndex payload) toolUseId
    | none => .other
  else if eventType = some "contentBlockDelta" then
    match (((payload.get? "delta").bind (Json.get? "toolUse")).bind
        (Json.get? "input")).bind Json.asStr with
    | some fragment =>
      .input (contentBlockIndex payload) fragment
        (((payload.get? "delta").bind (Json.get? "text")).bind Json.asStr).isSome
    | none => .other
  else .other

def sight (msg : EventStreamMessage) : Sight :=
  if msg.isException then .other
  else
    match fromSlice msg.payload with
    | .ok payload => sightOf payload msg.eventType
    | .error _ => .other

end Reading

def carried (block : Option ℕ) (sights : List Sight) : List String :=
  sights.filterMap fun
    | .input block' fragment _ => if block' = block ∧ block'.isSome then some fragment else none
    | _ => none

def bare (sights : List Sight) : List String :=
  sights.filterMap fun
    | .input _ fragment false => some fragment
    | _ => none

def Sight.opens : Sight → Option (Option ℕ)
  | .start block _ => some block
  | _ => none

def Sight.names : Sight → Option (Option ℕ)
  | .input block _ _ => some block
  | _ => none

def Opened (sights : List Sight) : Prop :=
  AtEach (fun before sight _ => ∀ block ∈ sight.names,
    block.isSome ∧ block ∈ before.filterMap Sight.opens) sights

/-- What comes between the opening of a tool's block and the next one is what names the block. -/
def InTurn (sights : List Sight) : Prop :=
  AtEach (fun _ sight after => ∀ block ∈ sight.opens,
    concat (bare (after.takeWhile fun sight => !sight.isStart)) =
      concat (carried block sights)) sights

instance (sights : List Sight) : Decidable (Opened sights) :=
  inferInstanceAs (Decidable (AtEach _ sights))

instance (sights : List Sight) : Decidable (InTurn sights) :=
  inferInstanceAs (Decidable (AtEach _ sights))

/-! ## Whole streams -/

section Streams

variable (fromSlice : PayloadReader) (model id : String)

def translateAll : StreamState → List EventStreamMessage →
    Except Halt (List (EventStreamMessage × Option Json) × StreamState)
  | s, [] => .ok ([], s)
  | s, msg :: rest => do
    let (chunk, s') ← transformStreamEvent fromSlice model id s msg
    let (more, s'') ← translateAll s' rest
    return ((msg, chunk) :: more, s'')

end Streams

def callsIn (chunk : Option Json) : List Json := chunk.elim [] toolCallsOf

def callsOf (frames : List (EventStreamMessage × Option Json)) : List Json :=
  frames.flatMap fun frame => callsIn frame.2

/-- Each tool call has the arguments that name the block of its opening. -/
def Delivered (fromSlice : PayloadReader) (frames : List (EventStreamMessage × Option Json)) :
    Prop :=
  ∀ msg chunk call toolUseId i block, (msg, chunk) ∈ frames → call ∈ callsIn chunk →
    callId call = some toolUseId → callIndex call = some i →
    sight fromSlice msg = .start block toolUseId →
    argumentsOf (callsOf frames) i =
      concat (carried block (frames.map fun frame => sight fromSlice frame.1))

/-! ## One frame -/

section Frames

variable {fromSlice : PayloadReader} {model id : String} {s s' : StreamState}
  {msg : EventStreamMessage} {chunk : Option Json}

structure Told (s s' : StreamState) (sight : Sight) (calls : List Json) : Prop where
  start : ∀ block toolUseId, sight = .start block toolUseId →
    s.toolCallIndex + 1 < 2 ^ 32 ∧ s'.toolCallIndex = s.toolCallIndex + 1 ∧
      ∃ call, calls = [call] ∧ callIndex call = asU64 (.ofNat s.toolCallIndex) ∧
        callId call = some toolUseId ∧ callArguments call = ""
  input : ∀ block fragment, sight = .input block fragment false →
    s'.toolCallIndex = s.toolCallIndex ∧
      ∃ call, calls = [call] ∧ callIndex call = asU64 (.ofNat (s.toolCallIndex - 1)) ∧
        callId call = none ∧ callArguments call = fragment
  silent : (∀ block toolUseId, sight ≠ .start block toolUseId) →
    (∀ block fragment, sight ≠ .input block fragment false) →
    s'.toolCallIndex = s.toolCallIndex ∧ calls = []

theorem told_silent {sight : Sight} (hindex : s'.toolCallIndex = s.toolCallIndex)
    (hstart : ∀ block toolUseId, sight ≠ .start block toolUseId)
    (hinput : ∀ block fragment, sight ≠ .input block fragment false) : Told s s' sight [] where
  start := fun block toolUseId h => absurd h (hstart block toolUseId)
  input := fun block fragment h => absurd h (hinput block fragment)
  silent := fun _ _ => ⟨hindex, rfl⟩

theorem asObj_bind_eq_some {found : Option Json} {fields : List (String × Json)}
    (h : found.bind Json.asObj = some fields) : found = some (.obj fields) := by
  obtain ⟨j, rfl, hj⟩ := Option.bind_eq_some_iff.mp h
  cases j with
  | obj fields' =>
    cases hj
    rfl
  | _ => cases hj

theorem sight_eq {payload : Json} (hexception : msg.isException = false)
    (hpayload : fromSlice msg.payload = .ok payload) :
    sight fromSlice msg = sightOf payload msg.eventType := by
  simp only [sight, hexception, hpayload, Bool.false_eq_true, if_false]

theorem translateContentBlockStart_told (htype : msg.eventType = some "contentBlockStart")
    (hexception : msg.isException = false)
    (h : translateContentBlockStart fromSlice model id s msg = .ok (chunk, s')) :
    Told s s' (sight fromSlice msg) (callsIn chunk) := by
  unfold translateContentBlockStart at h
  cases hpayload : fromSlice msg.payload with
  | error e =>
    simp only [hpayload] at h
    cases h
  | ok payload =>
    rw [sight_eq hexception hpayload, htype]
    simp only [hpayload] at h
    cases hstart : (payload.get? "start").bind Json.asObj with
    | none =>
      simp only [hstart] at h
      cases h
    | some start =>
      have hobject := asObj_bind_eq_some hstart
      simp only [hstart] at h
      cases htool : start.lookup "toolUse" with
      | none =>
        simp only [htool] at h
        cases h
        have hsight : sightOf payload (some "contentBlockStart") = .other := by
          have htoolUse : (Json.obj start).get? "toolUse" = none := htool
          simp only [sightOf, if_true, hobject, Option.bind_some, htoolUse, Option.bind_none]
        rw [hsight]
        exact told_silent rfl (fun _ _ => Sight.noConfusion) (fun _ _ => Sight.noConfusion)
      | some toolUse =>
        simp only [htool] at h
        cases hid : (toolUse.get? "toolUseId").bind Json.asStr with
        | none =>
          simp only [hid] at h
          cases h
        | some toolUseId =>
          simp only [hid] at h
          cases hname : (toolUse.get? "name").bind Json.asStr with
          | none =>
            simp only [hname] at h
            cases h
          | some name =>
            have hsight : sightOf payload (some "contentBlockStart") =
                .start (contentBlockIndex payload) toolUseId := by
              have htoolUse : (Json.obj start).get? "toolUse" = some toolUse := htool
              simp only [sightOf, if_true, hobject, Option.bind_some, htoolUse, hid]
            simp only [hname, startToolCall] at h
            by_cases hroom : s.toolCallIndex + 1 < 2 ^ 32
            · rw [if_pos hroom] at h
              cases h
              rw [hsight]
              refine ⟨fun block toolUseId' heq => ?_, fun _ _ heq => Sight.noConfusion heq,
                fun hne => absurd rfl (hne _ _)⟩
              cases heq
              exact ⟨hroom, rfl, _, rfl, rfl, rfl, rfl⟩
            · rw [if_neg hroom] at h
              cases h

theorem translateContentBlockDelta_told (htype : msg.eventType = some "contentBlockDelta")
    (hexception : msg.isException = false)
    (h : translateContentBlockDelta fromSlice model id s msg = .ok (chunk, s')) :
    Told s s' (sight fromSlice msg) (callsIn chunk) := by
  unfold translateContentBlockDelta at h
  cases hpayload : fromSlice msg.payload with
  | error e =>
    simp only [hpayload] at h
    cases h
  | ok payload =>
    rw [sight_eq hexception hpayload, htype]
    simp only [hpayload] at h
    have hnotStart : ∀ block toolUseId, sightOf payload (some "contentBlockDelta") ≠
        .start block toolUseId := by
      intro block toolUseId heq
      simp only [sightOf, Option.some.injEq, String.reduceEq, if_false, if_true] at heq
      split at heq <;> cases heq
    cases hdelta : (payload.get? "delta").bind Json.asObj with
    | none =>
      simp only [hdelta] at h
      cases h
    | some delta =>
      have hobject := asObj_bind_eq_some hdelta
      simp only [hdelta] at h
      cases htext : (delta.lookup "text").bind Json.asStr with
      | some text =>
        simp only [htext] at h
        cases h
        refine told_silent rfl hnotStart fun block fragment heq => ?_
        have hbeside : ((Json.obj delta).get? "text").bind Json.asStr = some text := htext
        simp only [sightOf, Option.some.injEq, String.reduceEq, if_false, if_true, hobject,
          Option.bind_some, hbeside, Option.isSome_some] at heq
        split at heq
        · injection heq with _ _ hfalse
          cases hfalse
        · cases heq
      | none =>
        simp only [htext] at h
        cases htool : delta.lookup "toolUse" with
        | some toolInput =>
          simp only [htool] at h
          cases hinput : (toolInput.get? "input").bind Json.asStr with
          | none =>
            simp only [hinput] at h
            cases h
          | some fragment =>
            have hsight : sightOf payload (some "contentBlockDelta") =
                .input (contentBlockIndex payload) fragment false := by
              have htoolUse : (Json.obj delta).get? "toolUse" = some toolInput := htool
              have hbeside : ((Json.obj delta).get? "text").bind Json.asStr = none := htext
              simp only [sightOf, Option.some.injEq, String.reduceEq, if_false, if_true, hobject,
                Option.bind_some, htoolUse, hinput, hbeside, Option.isSome_none]
            simp only [hinput] at h
            cases h
            rw [hsight]
            refine ⟨fun _ _ heq => Sight.noConfusion heq, fun block fragment' heq => ?_,
              fun _ hne => absurd rfl (hne _ _)⟩
            cases heq
            exact ⟨rfl, _, rfl, rfl, rfl, rfl⟩
        | none =>
          simp only [htool] at h
          by_cases hunexposed : isUnexposed delta = true
          · rw [if_pos hunexposed] at h
            cases h
            have hsight : sightOf payload (some "contentBlockDelta") = .other := by
              have htoolUse : (Json.obj delta).get? "toolUse" = none := htool
              simp only [sightOf, Option.some.injEq, String.reduceEq, if_false, if_true, hobject,
                Option.bind_some, htoolUse, Option.bind_none]
            rw [hsight]
            exact told_silent rfl (fun _ _ => Sight.noConfusion) (fun _ _ => Sight.noConfusion)
          · rw [if_neg hunexposed] at h
            cases h

theorem translateMessageStop_silent
    (h : translateMessageStop fromSlice model id s msg = .ok (chunk, s')) :
    s'.toolCallIndex = s.toolCallIndex ∧ callsIn chunk = [] := by
  unfold translateMessageStop at h
  split at h
  · cases h
  · split at h
    · cases h
    · split at h
      · cases h
        exact ⟨rfl, rfl⟩
      · cases h

theorem translateMetadataEvent_silent
    (h : translateMetadataEvent fromSlice model id s msg = .ok (chunk, s')) :
    s'.toolCallIndex = s.toolCallIndex ∧ callsIn chunk = [] := by
  unfold translateMetadataEvent at h
  split at h
  · cases h
  · split at h
    · cases h
    · split at h
      · cases h
      · cases h
        exact ⟨rfl, rfl⟩

theorem transformStreamEvent_told
    (h : transformStreamEvent fromSlice model id s msg = .ok (chunk, s')) :
    Told s s' (sight fromSlice msg) (callsIn chunk) := by
  unfold transformStreamEvent at h
  by_cases hexception : msg.isException = true
  · rw [if_pos hexception] at h
    cases h
    have hsight : sight fromSlice msg = .other := by
      rw [sight, if_pos hexception]
    rw [hsight]
    exact told_silent rfl (fun _ _ => Sight.noConfusion) (fun _ _ => Sight.noConfusion)
  · rw [if_neg hexception] at h
    have hregular : msg.isException = false := Bool.eq_false_iff.mpr hexception
    cases htype : msg.eventType with
    | none =>
      simp only [htype] at h
      cases h
    | some eventType =>
      simp only [htype] at h
      by_cases hstart : eventType = "contentBlockStart"
      · subst hstart
        simp only [String.reduceEq, if_false, if_true] at h
        exact translateContentBlockStart_told htype hregular h
      · by_cases hdelta : eventType = "contentBlockDelta"
        · subst hdelta
          simp only [String.reduceEq, if_false, if_true] at h
          exact translateContentBlockDelta_told htype hregular h
        · have hsight : sight fromSlice msg = .other := by
            cases hpayload : fromSlice msg.payload with
            | error e => simp [sight, hregular, hpayload]
            | ok payload =>
              rw [sight_eq hregular hpayload, htype]
              simp [sightOf, hstart, hdelta]
          rw [hsight]
          have hsilent : s'.toolCallIndex = s.toolCallIndex ∧ callsIn chunk = [] := by
            simp only [hstart, hdelta, if_false] at h
            split at h
            · cases h
              exact ⟨rfl, rfl⟩
            · split at h
              · exact translateMessageStop_silent h
              · split at h
                · exact translateMetadataEvent_silent h
                · cases h
                  exact ⟨rfl, rfl⟩
          rw [hsilent.2]
          exact told_silent hsilent.1 (fun _ _ => Sight.noConfusion)
            (fun _ _ => Sight.noConfusion)

end Frames

/-! ## Runs -/

section Fragments

variable {sights more : List Sight} {block : Option ℕ}

theorem concat_append (us vs : List String) : concat (us ++ vs) = concat us ++ concat vs := by
  induction us with
  | nil => simp [concat]
  | cons u us ih =>
    simp only [concat, cons_append, foldr_cons] at ih ⊢
    rw [ih, String.append_assoc]

theorem argumentsOf_append (calls more : List Json) (i : ℕ) :
    argumentsOf (calls ++ more) i = argumentsOf calls i ++ argumentsOf more i := by
  rw [argumentsOf, filter_append, map_append, concat_append]
  rfl

theorem argumentsOf_eq_empty {calls : List Json} {i : ℕ}
    (h : ∀ call ∈ calls, callIndex call ≠ some i) : argumentsOf calls i = "" := by
  have hnone : (calls.filter fun call => callIndex call = some i) = [] := by
    rw [filter_eq_nil_iff]
    intro call hcall
    simpa using h call hcall
  rw [argumentsOf, hnone]
  rfl

theorem argumentsOf_singleton {call : Json} {i : ℕ} (h : callIndex call = some i) :
    argumentsOf [call] i = callArguments call := by
  simp [argumentsOf, h, concat]

end Fragments

inductive Traced : StreamState → List (Sight × List Json) → StreamState → Prop where
  | nil (s) : Traced s [] s
  | cons {s s₁ s' step steps} : Told s s₁ step.1 step.2 → Traced s₁ steps s' →
      Traced s (step :: steps) s'

def sights (steps : List (Sight × List Json)) : List Sight := steps.map Prod.fst

def calls (steps : List (Sight × List Json)) : List Json := steps.flatMap Prod.snd

section Runs

variable {s s' : StreamState} {step : Sight × List Json}
  {steps before after : List (Sight × List Json)}

theorem Traced.split (h : Traced s (before ++ after) s') :
    ∃ s₁, Traced s before s₁ ∧ Traced s₁ after s' := by
  induction before generalizing s with
  | nil => exact ⟨s, .nil s, h⟩
  | cons step rest ih =>
    cases h with
    | cons htold hrest =>
      obtain ⟨s₁, hbefore, hafter⟩ := ih hrest
      exact ⟨s₁, .cons htold hbefore, hafter⟩

theorem told_cases (hsmall : s.toolCallIndex < 2 ^ 32) (h : Told s s' step.1 step.2) :
    s'.toolCallIndex < 2 ^ 32 ∧
    ((∃ block toolUseId call, step = (.start block toolUseId, [call]) ∧
      s'.toolCallIndex = s.toolCallIndex + 1 ∧ callIndex call = some s.toolCallIndex ∧
      callId call = some toolUseId ∧ callArguments call = "") ∨
    (∃ block fragment call, step = (.input block fragment false, [call]) ∧
      s'.toolCallIndex = s.toolCallIndex ∧ callIndex call = some (s.toolCallIndex - 1) ∧
      callId call = none ∧ callArguments call = fragment) ∨
    (step.1.isStart = false ∧ bare [step.1] = [] ∧ step.2 = [] ∧
      s'.toolCallIndex = s.toolCallIndex)) := by
  obtain ⟨sight, found⟩ := step
  cases sight with
  | start block toolUseId =>
    obtain ⟨hroom, hnext, call, hcalls, hindex, hid, harguments⟩ := h.start block toolUseId rfl
    rw [asU64_ofNat (by omega)] at hindex
    simp only at hcalls
    exact ⟨by omega, Or.inl ⟨block, toolUseId, call, by rw [hcalls], hnext, hindex, hid,
      harguments⟩⟩
  | input block fragment besideText =>
    cases besideText with
    | false =>
      obtain ⟨hnext, call, hcalls, hindex, hid, harguments⟩ := h.input block fragment rfl
      rw [asU64_ofNat (by omega)] at hindex
      simp only at hcalls
      exact ⟨by omega, Or.inr (Or.inl ⟨block, fragment, call, by rw [hcalls], hnext, hindex,
        hid, harguments⟩)⟩
    | true =>
      obtain ⟨hnext, hcalls⟩ := h.silent (fun _ _ => Sight.noConfusion)
        (fun _ _ heq => by cases heq)
      exact ⟨by omega, Or.inr (Or.inr ⟨rfl, rfl, hcalls, hnext⟩)⟩
  | other =>
    obtain ⟨hnext, hcalls⟩ := h.silent (fun _ _ => Sight.noConfusion)
      (fun _ _ => Sight.noConfusion)
    exact ⟨by omega, Or.inr (Or.inr ⟨rfl, rfl, hcalls, hnext⟩)⟩

/-- Later calls belong to the block opened last, or to later ones. -/
theorem Traced.later (h : Traced s steps s') (hsmall : s.toolCallIndex < 2 ^ 32) :
    ∀ call ∈ calls steps, ∀ i, callIndex call = some i → s.toolCallIndex ≤ i + 1 := by
  induction h with
  | nil s => exact fun _ h => absurd h not_mem_nil
  | cons htold _ ih =>
    obtain ⟨hsmall', hcases⟩ := told_cases hsmall htold
    have ih := ih hsmall'
    intro call hcall i hi
    rw [calls, flatMap_cons, mem_append] at hcall
    rcases hcases with ⟨block, toolUseId, call', rfl, hnext, hindex, -⟩ |
      ⟨block, fragment, call', rfl, hnext, hindex, -⟩ | ⟨-, -, hcalls, hnext⟩
    · rcases hcall with hhead | htail
      · rw [mem_singleton.mp hhead, hindex] at hi
        cases hi
        omega
      · have := ih call htail i hi
        omega
    · rcases hcall with hhead | htail
      · rw [mem_singleton.mp hhead, hindex] at hi
        cases hi
        omega
      · have := ih call htail i hi
        omega
    · rw [hcalls] at hcall
      rcases hcall with hhead | htail
      · cases hhead
      · have := ih call htail i hi
        omega

/-- Where every fragment comes behind the opening of some block, earlier calls belong to blocks
that have opened. -/
theorem Traced.earlier (h : Traced s steps s') (hsmall : s.toolCallIndex < 2 ^ 32)
    (hopened : ∀ before block fragment after,
      sights steps = before ++ .input block fragment false :: after →
        0 < s.toolCallIndex ∨ ∃ block toolUseId, .start block toolUseId ∈ before) :
    s'.toolCallIndex < 2 ^ 32 ∧ s.toolCallIndex ≤ s'.toolCallIndex ∧
      ∀ call ∈ calls steps, ∀ i, callIndex call = some i → i < s'.toolCallIndex := by
  induction h with
  | nil s => exact ⟨hsmall, Nat.le_refl _, fun _ h => absurd h not_mem_nil⟩
  | @cons s s₁ s' step steps htold _ ih =>
    obtain ⟨hsmall', hcases⟩ := told_cases hsmall htold
    have hmono : s.toolCallIndex ≤ s₁.toolCallIndex := by
      rcases hcases with ⟨_, _, _, _, hnext, _⟩ | ⟨_, _, _, _, hnext, _⟩ | ⟨_, _, _, hnext⟩ <;>
        omega
    have hrest : ∀ before block fragment after,
        sights steps = before ++ .input block fragment false :: after →
          0 < s₁.toolCallIndex ∨ ∃ block toolUseId, .start block toolUseId ∈ before := by
      intro before block fragment after heq
      have hwhole : sights (step :: steps) =
          (step.1 :: before) ++ .input block fragment false :: after := by
        rw [sights, map_cons, cons_append, ← heq]
        rfl
      rcases hopened _ _ _ _ hwhole with hpos | ⟨block', toolUseId, hmem⟩
      · left
        omega
      · rcases mem_cons.mp hmem with hhead | htail
        · left
          rcases hcases with ⟨_, _, _, _, hnext, _⟩ | ⟨_, _, _, rfl, _⟩ | ⟨hstart, _⟩
          · omega
          · cases hhead
          · rw [← hhead] at hstart
            cases hstart
        · exact Or.inr ⟨block', toolUseId, htail⟩
    obtain ⟨hlast, hle, hbelow⟩ := ih hsmall' hrest
    refine ⟨hlast, by omega, fun call hcall i hi => ?_⟩
    rw [calls, flatMap_cons, mem_append] at hcall
    rcases hcall with hhead | htail
    · rcases hcases with ⟨block, toolUseId, call', rfl, hnext, hindex, -⟩ |
        ⟨block, fragment, call', rfl, hnext, hindex, -⟩ | ⟨-, -, hcalls, -⟩
      · rw [mem_singleton.mp hhead, hindex] at hi
        cases hi
        omega
      · have hpos : 0 < s.toolCallIndex := by
          rcases hopened [] block fragment (sights steps) rfl with hpos | ⟨_, _, hmem⟩
          · exact hpos
          · cases hmem
        rw [mem_singleton.mp hhead, hindex] at hi
        cases hi
        omega
      · rw [hcalls] at hhead
        cases hhead
    · exact hbelow call htail i hi

theorem bare_cons (sight : Sight) (rest : List Sight) :
    bare (sight :: rest) = bare [sight] ++ bare rest := filterMap_append (l := [sight])

/-- The block opened last gets every fragment up to the next opening. -/
theorem Traced.current (h : Traced s steps s') (hsmall : s.toolCallIndex < 2 ^ 32) {i : ℕ}
    (hi : s.toolCallIndex = i + 1) : argumentsOf (calls steps) i =
      concat (bare ((sights steps).takeWhile fun sight => !sight.isStart)) := by
  induction h with
  | nil s => rfl
  | @cons s s₁ s' step steps htold hrest ih =>
    obtain ⟨hsmall', hcases⟩ := told_cases hsmall htold
    rw [calls, flatMap_cons, argumentsOf_append, sights, map_cons]
    rcases hcases with ⟨block, toolUseId, call, rfl, hnext, hindex, -⟩ |
      ⟨block, fragment, call, rfl, hnext, hindex, -, harguments⟩ | ⟨hstart, hbare, hcalls, hnext⟩
    · have hhead : argumentsOf [call] i = "" := by
        apply argumentsOf_eq_empty
        intro call' hmem
        rw [mem_singleton.mp hmem, hindex, Ne, Option.some.injEq]
        omega
      have htail : argumentsOf (calls steps) i = "" := by
        apply argumentsOf_eq_empty
        intro call' hmem hindex'
        have := hrest.later hsmall' call' hmem i hindex'
        omega
      rw [hhead]
      exact htail
    · have hcurrent : callIndex call = some i := by
        rw [hindex, hi, Nat.add_sub_cancel]
      rw [argumentsOf_singleton hcurrent, harguments]
      have htail := ih hsmall' (hnext.trans hi)
      rw [calls, sights] at htail
      rw [htail, takeWhile_cons_of_pos (by rfl), bare_cons, concat_append]
      simp [bare, concat]
    · have htail := ih hsmall' (hnext.trans hi)
      rw [calls, sights] at htail
      rw [hcalls, htail, takeWhile_cons_of_pos (by simp [hstart]), bare_cons, hbare]
      rfl

/-- The call that a block opens has exactly the fragments up to the next opening. -/
theorem Traced.arguments {block : Option ℕ} {toolUseId : String} {found : List Json}
    (h : Traced s (before ++ (.start block toolUseId, found) :: after) s')
    (hsmall : s.toolCallIndex < 2 ^ 32)
    (hopened : Opened (sights (before ++ (.start block toolUseId, found) :: after))) :
    ∃ call i, found = [call] ∧ callId call = some toolUseId ∧ callIndex call = some i ∧
      argumentsOf (calls (before ++ (.start block toolUseId, found) :: after)) i =
        concat (bare ((sights after).takeWhile fun sight => !sight.isStart)) := by
  obtain ⟨s₁, hbefore, hrest⟩ := h.split
  have hopenedBefore : ∀ before' block' fragment after',
      sights before = before' ++ .input block' fragment false :: after' →
        0 < s.toolCallIndex ∨ ∃ block toolUseId, .start block toolUseId ∈ before' := by
    intro before' block' fragment after' heq
    have hwhole : sights (before ++ (.start block toolUseId, found) :: after) =
        before' ++ .input block' fragment false ::
          (after' ++ .start block toolUseId :: sights after) := by
      rw [sights, map_append, ← sights, heq]
      simp [sights]
    obtain ⟨-, hmem⟩ := hopened _ _ _ hwhole block' rfl
    obtain ⟨opening, hopening, hopens⟩ := mem_filterMap.mp hmem
    cases opening with
    | start block toolUseId' => exact Or.inr ⟨block, toolUseId', hopening⟩
    | input _ _ _ => cases hopens
    | other => cases hopens
  obtain ⟨hsmall₁, -, hearlier⟩ := hbefore.earlier hsmall hopenedBefore
  cases hrest with
  | cons htold hafter =>
    obtain ⟨hsmall₂, hcases⟩ := told_cases hsmall₁ htold
    rcases hcases with ⟨block', toolUseId', call, heq, hnext, hindex, hid, harguments⟩ |
      ⟨_, _, _, heq, _⟩ | ⟨hstart, _⟩
    · cases heq
      refine ⟨call, s₁.toolCallIndex, rfl, hid, hindex, ?_⟩
      have hnone : argumentsOf (calls before) s₁.toolCallIndex = "" := by
        apply argumentsOf_eq_empty
        intro call' hmem hindex'
        have := hearlier call' hmem _ hindex'
        omega
      rw [calls, flatMap_append, flatMap_cons, argumentsOf_append, argumentsOf_append,
        argumentsOf_singleton hindex, harguments]
      change argumentsOf (calls before) _ ++ ("" ++ argumentsOf (calls after) _) = _
      rw [hnone, hafter.current hsmall₂ hnext, String.empty_append, String.empty_append]
    · cases heq
    · cases hstart

end Runs

section Streams

variable {fromSlice : PayloadReader} {model id : String} {s s' : StreamState}
  {msgs : List EventStreamMessage} {frames : List (EventStreamMessage × Option Json)}

def stepsOf (fromSlice : PayloadReader) (frames : List (EventStreamMessage × Option Json)) :
    List (Sight × List Json) :=
  frames.map fun frame => (sight fromSlice frame.1, callsIn frame.2)

theorem traced_translateAll (h : translateAll fromSlice model id s msgs = .ok (frames, s')) :
    frames.map Prod.fst = msgs ∧ Traced s (stepsOf fromSlice frames) s' := by
  induction msgs generalizing s frames with
  | nil =>
    cases h
    exact ⟨rfl, .nil _⟩
  | cons msg rest ih =>
    obtain ⟨⟨chunk, s₁⟩, hframe, h⟩ := bind_ok h
    obtain ⟨⟨more, s₂⟩, hrest, h⟩ := bind_ok h
    cases h
    obtain ⟨hmsgs, htraced⟩ := ih hrest
    exact ⟨by rw [map_cons, hmsgs], .cons (transformStreamEvent_told hframe) htraced⟩

theorem calls_stepsOf : calls (stepsOf fromSlice frames) = callsOf frames := by
  rw [calls, stepsOf, flatMap_map]
  rfl

theorem sights_stepsOf : sights (stepsOf fromSlice frames) =
    frames.map fun frame => sight fromSlice frame.1 := by
  rw [sights, stepsOf, map_map]
  rfl

/-- For every stream that is translated and in which each fragment names a block that has opened
before: each tool call gets the fragments that name its block, exactly if these are what comes
between the opening of the block and the next one. -/
theorem tool_arguments_delivered_iff (fromSlice : PayloadReader) (model id : String) (now : ℕ)
    (msgs : List EventStreamMessage) (frames : List (EventStreamMessage × Option Json))
    (s' : StreamState) (h : translateAll fromSlice model id (.start now) msgs = .ok (frames, s'))
    (hopened : Opened (msgs.map (sight fromSlice))) :
    Delivered fromSlice frames ↔ InTurn (msgs.map (sight fromSlice)) := by
  obtain ⟨hmsgs, htraced⟩ := traced_translateAll h
  have hsights : msgs.map (sight fromSlice) = sights (stepsOf fromSlice frames) := by
    rw [sights_stepsOf, ← hmsgs, map_map]
    rfl
  have hsmall : (StreamState.start now).toolCallIndex < 2 ^ 32 := Nat.two_pow_pos 32
  rw [hsights] at hopened ⊢
  constructor
  · intro hdelivered before opening after heq block hopens
    obtain ⟨toolUseId, rfl⟩ : ∃ toolUseId, opening = .start block toolUseId := by
      cases opening with
      | start block' toolUseId =>
        cases hopens
        exact ⟨toolUseId, rfl⟩
      | input _ _ _ => cases hopens
      | other => cases hopens
    rw [sights_stepsOf] at heq
    obtain ⟨framesBefore, rest, rfl, hbefore, hrest⟩ := map_eq_append_iff.mp heq
    obtain ⟨frame, framesAfter, rfl, hframe, hafter⟩ := map_eq_cons_iff.mp hrest
    have hsteps : stepsOf fromSlice (framesBefore ++ frame :: framesAfter) =
        stepsOf fromSlice framesBefore ++ (.start block toolUseId, callsIn frame.2) ::
          stepsOf fromSlice framesAfter := by
      rw [stepsOf, map_append, map_cons, hframe]
      rfl
    have htraced' := htraced
    have hopened' := hopened
    rw [hsteps] at htraced' hopened'
    obtain ⟨call, i, hfound, hid, hindex, harguments⟩ := htraced'.arguments hsmall hopened'
    have hexact := hdelivered frame.1 frame.2 call toolUseId i block (by simp)
      (by rw [hfound]; exact mem_singleton_self _) hid hindex hframe
    rw [← hafter, ← sights_stepsOf, ← harguments, ← hsteps, calls_stepsOf, hexact, ← sights_stepsOf]
  · intro hturn msg chunk call toolUseId i block hmem hcall hid hindex hsight
    obtain ⟨framesBefore, framesAfter, rfl⟩ := append_of_mem hmem
    have hsteps : stepsOf fromSlice (framesBefore ++ (msg, chunk) :: framesAfter) =
        stepsOf fromSlice framesBefore ++ (.start block toolUseId, callsIn chunk) ::
          stepsOf fromSlice framesAfter := by
      rw [stepsOf, map_append, map_cons, hsight]
      rfl
    have hturn' := hturn (sights (stepsOf fromSlice framesBefore)) (.start block toolUseId)
      (sights (stepsOf fromSlice framesAfter)) (by
        rw [hsteps, sights, map_append, map_cons]
        rfl) block rfl
    rw [hsteps] at htraced hopened
    obtain ⟨call', i', hfound, hid', hindex', harguments⟩ := htraced.arguments hsmall hopened
    rw [hfound, mem_singleton] at hcall
    subst hcall
    rw [hindex'] at hindex
    cases hindex
    have hcalls : calls (stepsOf fromSlice (framesBefore ++ (msg, chunk) :: framesAfter)) =
        callsOf (framesBefore ++ (msg, chunk) :: framesAfter) := calls_stepsOf
    rw [← hcalls, hsteps, harguments, hturn', sights_stepsOf]

end Streams

/-! ## Two tools at once -/

def toolEvent (eventType : String) (payload : UInt8) : EventStreamMessage :=
  ⟨[⟨":event-type", .string eventType⟩], [payload]⟩

def toolStart (block : ℕ) (toolUseId : String) : Json :=
  .obj [("contentBlockIndex", .ofNat block), ("start", .obj [("toolUse",
    .obj [("toolUseId", .str toolUseId), ("name", .str "lookup")])])]

def toolInput (block : ℕ) (fragment : String) : Json :=
  .obj [("contentBlockIndex", .ofNat block), ("delta", .obj [("toolUse",
    .obj [("input", .str fragment)])])]

def readFrom (payloads : List Json) : PayloadReader
  | [k] => (payloads[k.toNat]?).elim (.error "no such payload") .ok
  | _ => .error "no payload"

def twoTools : PayloadReader :=
  readFrom [toolStart 0 "a", toolStart 1 "b", toolInput 0 "1", toolInput 1 "2"]

def oneAfterAnother : List EventStreamMessage :=
  [toolEvent "contentBlockStart" 0, toolEvent "contentBlockDelta" 2,
    toolEvent "contentBlockStart" 1, toolEvent "contentBlockDelta" 3]

theorem tool_arguments_delivered_one_after_another :
    ∃ frames s', translateAll twoTools "m" "chatcmpl-1" (.start 0) oneAfterAnother =
      .ok (frames, s') ∧ Delivered twoTools frames := by
  refine ⟨_, _, rfl, (tool_arguments_delivered_iff twoTools "m" "chatcmpl-1" 0 oneAfterAnother
    _ _ rfl ?_).mpr ?_⟩
  · decide +kernel
  · decide +kernel

/-- Both blocks are open when their fragments come: both fragments go to the second tool. -/
theorem interleaved_tools_mixed_up :
    Opened ([toolEvent "contentBlockStart" 0, toolEvent "contentBlockStart" 1,
      toolEvent "contentBlockDelta" 2, toolEvent "contentBlockDelta" 3].map (sight twoTools)) ∧
    ∃ frames s', translateAll twoTools "m" "chatcmpl-1" (.start 0)
        [toolEvent "contentBlockStart" 0, toolEvent "contentBlockStart" 1,
          toolEvent "contentBlockDelta" 2, toolEvent "contentBlockDelta" 3] = .ok (frames, s') ∧
      (callsOf frames).map callId = [some "a", some "b", none, none] ∧
      argumentsOf (callsOf frames) 0 = "" ∧ argumentsOf (callsOf frames) 1 = "12" ∧
      ¬Delivered twoTools frames := by
  refine ⟨by decide +kernel, _, _, rfl, by decide +kernel, by decide +kernel, by decide +kernel,
    fun h => ?_⟩
  have hfirst := h (toolEvent "contentBlockStart" 0) _ _ "a" 0 (some 0) mem_cons_self
    mem_cons_self (by decide +kernel) (by decide +kernel) (by decide +kernel)
  exact absurd hfirst (by decide +kernel)

end BedrockToolCalls
