import PraxisAi.AnthropicFaithfulness

/-! # How a message stream ends

A refused call ends the stream for good. The sentinel closes the message but is not remembered:
another one closes it again, later chunks are translated, and a stream that ends without it is
never closed. The stream ends as it should exactly if its data events leave no room for this. -/
namespace AnthropicEndings

open List
open SseFrames JsonValues KeyedMaps AnthropicTranslation AnthropicStream AnthropicChunking
open AnthropicFaithfulness
open ChunkedRuns (resume run run_append resume_silent)

section Refusals

variable {known : Set ToolCallKey} {tc : Json} {rest a b : List Json}

/-- Some call has no usable id or name in its first fragment, and is not one of the known ones. -/
def RefusedBeyond (known : Set ToolCallKey) (calls : List Json) : Prop :=
  ∃ before tc after, calls = before ++ tc :: after ∧ toolCallKey tc ∉ known ∧
    (∀ earlier ∈ before, toolCallKey earlier ≠ toolCallKey tc) ∧ extractToolIdAndName tc = none

theorem not_refusedBeyond_nil : ¬RefusedBeyond known [] := by
  rintro ⟨before, tc, after, h, -⟩
  simp at h

theorem refusedBeyond_cons : RefusedBeyond known (tc :: rest) ↔
    (toolCallKey tc ∉ known ∧ extractToolIdAndName tc = none) ∨
      RefusedBeyond (insert (toolCallKey tc) known) rest := by
  constructor
  · rintro ⟨_ | ⟨first, before⟩, tc', after, hcalls, hnew, hfirst, hnone⟩
    · cases hcalls
      exact .inl ⟨hnew, hnone⟩
    · cases hcalls
      refine .inr ⟨before, tc', after, rfl, ?_, ?_, hnone⟩
      · rw [Set.mem_insert_iff, not_or]
        exact ⟨fun heq => hfirst tc mem_cons_self heq.symm, hnew⟩
      · exact fun earlier hearlier => hfirst earlier (mem_cons_of_mem _ hearlier)
  · rintro (⟨hnew, hnone⟩ | ⟨before, tc', after, rfl, hnew, hfirst, hnone⟩)
    · exact ⟨[], tc, rest, rfl, hnew, fun earlier hearlier => absurd hearlier not_mem_nil, hnone⟩
    · rw [Set.mem_insert_iff, not_or] at hnew
      refine ⟨tc :: before, tc', after, rfl, hnew.2, ?_, hnone⟩
      intro earlier hearlier
      rcases mem_cons.mp hearlier with rfl | hearlier
      · exact Ne.symm hnew.1
      · exact hfirst earlier hearlier

def keysIn (calls : List Json) : Set ToolCallKey := {key | ∃ tc ∈ calls, toolCallKey tc = key}

theorem refusedBeyond_append : RefusedBeyond known (a ++ b) ↔
    RefusedBeyond known a ∨ RefusedBeyond (known ∪ keysIn a) b := by
  induction a generalizing known with
  | nil =>
    have hnone : known ∪ keysIn [] = known := by simp [keysIn]
    rw [nil_append, hnone, or_iff_right not_refusedBeyond_nil]
  | cons tc a ih =>
    have hkeys : insert (toolCallKey tc) known ∪ keysIn a = known ∪ keysIn (tc :: a) := by
      ext key
      simp only [keysIn, Set.mem_union, Set.mem_insert_iff, Set.mem_ofPred_eq, mem_cons,
        exists_eq_or_imp]
      tauto
    rw [cons_append, refusedBeyond_cons, ih, refusedBeyond_cons, hkeys, or_assoc]

def Refused (calls : List Json) : Prop := RefusedBeyond ∅ calls

end Refusals

section Verdicts

variable {m m₁ m₂ m' : StreamMetadata} {events events' : List StreamEvent} {tc : Json}
  {maxToolBlocks : ℕ} {contents : List String} {calls calls' : List Json}

def keysOf (m : StreamMetadata) : Set ToolCallKey := {key | key ∈ m.toolBlocks}

/-- The stream has failed, and the error is the last that was sent. -/
structure Broken (events : List StreamEvent) (m' : StreamMetadata) : Prop where
  failed : m'.isStreamFailed = true
  last : ∃ before, events = before ++ [.error] ∧ ∀ event ∈ before, place event = .block

def Verdict (m : StreamMetadata) (calls : List Json) (events : List StreamEvent)
    (m' : StreamMetadata) : Prop :=
  ((∃ contents, Segment m contents calls events m') ∧ ¬RefusedBeyond (keysOf m) calls) ∨
    (Broken events m' ∧ RefusedBeyond (keysOf m) calls)

theorem keysOf_segment (h : Segment m contents calls events m') :
    keysOf m' = keysOf m ∪ keysIn calls := by
  ext key
  exact h.called key

theorem Verdict.of_segment (h : Segment m contents [] events m') : Verdict m [] events m' :=
  .inl ⟨⟨contents, h⟩, not_refusedBeyond_nil⟩

theorem Verdict.append (h : Segment m contents calls events m₁)
    (hcalls : ¬RefusedBeyond (keysOf m) calls) (h' : Verdict m₁ calls' events' m₂) :
    Verdict m (calls ++ calls') (events ++ events') m₂ := by
  rw [Verdict, keysOf_segment h] at h'
  rcases h' with ⟨⟨contents', hmore⟩, hrest⟩ | ⟨⟨hfailed, before, rfl, hbefore⟩, hrest⟩
  · refine .inl ⟨⟨_, h.append hmore⟩, ?_⟩
    rw [refusedBeyond_append, not_or]
    exact ⟨hcalls, hrest⟩
  · refine .inr ⟨⟨hfailed, events ++ before, (append_assoc _ _ _).symm, ?_⟩, ?_⟩
    · intro event hevent
      rcases mem_append.mp hevent with hfirst | hsecond
      · exact h.blocks event hfirst
      · exact hbefore event hsecond
    · rw [refusedBeyond_append]
      exact .inr hrest

theorem error_not_mem_arguments (key : ToolCallKey) (tc : Json) :
    .error ∉ emitToolArgumentsDelta key tc m := by
  rw [emitToolArgumentsDelta]
  split <;> simp

/-- One fragment is refused if it is the first of its call and cannot start a block. -/
theorem transformToolDelta_verdict (hm : Tidy m) (htext : m.textBlockOpen = false)
    (h : transformToolDelta maxToolBlocks tc m = .ok (events, m')) :
    Verdict m [tc] events m' ∧ m'.textBlockOpen = false := by
  have hclean : .error ∉ events → (toolCallKey tc ∈ keysOf m ∨ extractToolIdAndName tc ≠ none) →
      Verdict m [tc] events m' ∧ m'.textBlockOpen = false := by
    intro herror hfine
    obtain ⟨hsegment, htext'⟩ := transformToolDelta_segment hm htext h herror
    refine ⟨.inl ⟨⟨[], hsegment⟩, ?_⟩, htext'⟩
    rw [refusedBeyond_cons, not_or]
    refine ⟨fun hrefused => ?_, not_refusedBeyond_nil⟩
    exact hfine.elim hrefused.1 fun hsome => hsome hrefused.2
  obtain ⟨hopen, hevents, -⟩ | ⟨hclosed, hnone, rfl, rfl⟩ | ⟨id, name, -, hsome, hevents, -⟩ :=
    transformToolDelta_cases h
  · obtain ⟨b, hb⟩ := lookup_of_open hopen
    refine hclean ?_ (.inl (mem_of_lookup hb))
    rw [hevents]
    exact error_not_mem_arguments _ _
  · refine ⟨.inr ⟨⟨rfl, [], rfl, fun event hevent => absurd hevent not_mem_nil⟩, ?_⟩, htext⟩
    rw [refusedBeyond_cons]
    exact .inl ⟨lookup_eq_none_iff.mp (hm.lookup_none hclosed), hnone⟩
  · refine hclean ?_ (.inr (by rw [hsome]; exact Option.some_ne_none _))
    rw [hevents, mem_cons, not_or]
    exact ⟨by simp, error_not_mem_arguments _ _⟩

theorem transformToolDeltas_verdict {toolCalls : List Json} (hm : Tidy m)
    (htext : m.textBlockOpen = false) (hgoes : m.isStreamFailed = false)
    (h : transformToolDeltas maxToolBlocks toolCalls m = .ok (events, m')) :
    Verdict m toolCalls events m' := by
  induction toolCalls generalizing m events with
  | nil =>
    cases h
    exact .of_segment (SameBlocks.segment ⟨rfl, rfl, rfl, rfl⟩ hm)
  | cons tc rest ih =>
    obtain ⟨sent, m₁, later, hfirst, hrest, rfl⟩ := resume_ok h
    obtain ⟨⟨⟨contents, hone⟩, hfine⟩ | ⟨hbroken, hrefused⟩, htext₁⟩ :=
      transformToolDelta_verdict hm htext hfirst
    · have hgoes₁ := hone.goes hgoes
      rw [if_neg (by rw [hgoes₁]; decide)] at hrest
      exact .append hone hfine (ih hone.tidy htext₁ hgoes₁ hrest)
    · rw [if_pos hbroken.failed] at hrest
      cases hrest
      rw [append_nil]
      refine .inr ⟨hbroken, ?_⟩
      rw [← singleton_append, refusedBeyond_append]
      exact .inl hrefused

theorem transformDelta_verdict {delta : Json} (hm : Tidy m) (hgoes : m.isStreamFailed = false)
    (h : transformDelta maxToolBlocks delta m = .ok (events, m')) :
    Verdict m (((delta.get? "tool_calls").bind Json.asArr).getD []) events m' := by
  rw [transformDelta] at h
  obtain ⟨sent, m₁, later, hfirst, hrest, rfl⟩ := resume_ok h
  have htexts : ∃ contents, Segment m contents [] sent m₁ := by
    generalize (delta.get? "content").bind Json.asStr = found at hfirst
    rcases found with _ | content
    · cases hfirst
      exact ⟨[], SameBlocks.segment ⟨rfl, rfl, rfl, rfl⟩ hm⟩
    · cases hfirst
      exact ⟨[content], emitTextDelta_segment hm content⟩
  obtain ⟨contents, htexts⟩ := htexts
  refine .append htexts not_refusedBeyond_nil ?_
  generalize (delta.get? "tool_calls").bind Json.asArr = found at hrest ⊢
  rcases found with _ | toolCalls
  · cases hrest
    exact .of_segment (SameBlocks.segment ⟨rfl, rfl, rfl, rfl⟩ htexts.tidy)
  · obtain ⟨closing, m₂, deltas, hclose, hdeltas, rfl⟩ := resume_ok hrest
    obtain ⟨hclosed, htext⟩ := closeTextBlockIfOpen_segment htexts.tidy hclose
    exact .append hclosed not_refusedBeyond_nil (transformToolDeltas_verdict hclosed.tidy htext
      (hclosed.goes (htexts.goes hgoes)) hdeltas)

theorem Verdict.same (h : Verdict m calls events m₁) (hsame : SameBlocks m₁ m') :
    Verdict m calls events m' := by
  rcases h with ⟨⟨contents, hsegment⟩, hfine⟩ | ⟨⟨hfailed, hlast⟩, hrefused⟩
  · have hall := hsegment.append (hsame.segment hsegment.tidy)
    rw [append_nil, append_nil, append_nil] at hall
    exact .inl ⟨⟨contents, hall⟩, hfine⟩
  · refine .inr ⟨⟨?_, hlast⟩, hrefused⟩
    rw [StreamMetadata.isStreamFailed, hsame.phase]
    exact hfailed

theorem transformChunk_verdict {c : Config} {id : ℕ} {chunk : Json} (hm : Tidy m)
    (hstarted : m.phase = some .started) (h : transformChunk c id chunk m = .ok (events, m')) :
    Verdict m (callsOf chunk) events m' := by
  rw [transformChunk, if_pos (isStarted_of_started hstarted), resume_silent] at h
  rw [callsOf, deltaOf]
  generalize extractFirstChoice chunk = first at h ⊢
  rcases first with _ | choice
  · cases h
    exact .of_segment (extractUsageTokens_same.segment hm)
  · obtain ⟨sent, m₁, later, hdelta, hlater, rfl⟩ := resume_ok h
    cases hlater
    rw [append_nil]
    refine Verdict.same (Verdict.same ?_ (noteFinish_same choice)) extractUsageTokens_same
    rw [Option.bind_some]
    generalize choice.get? "delta" = found at hdelta ⊢
    rcases found with _ | delta
    · cases hdelta
      exact .of_segment (SameBlocks.segment ⟨rfl, rfl, rfl, rfl⟩ hm)
    · exact transformDelta_verdict hm (not_failed_of_started hstarted) hdelta

end Verdicts

section Listening

variable {c : Config} {fromStr : Bytes → Except String Json} {m m' : StreamMetadata}
  {events : List StreamEvent} {data : Bytes}

theorem Verdict.erased {calls : List Json} (h : Verdict m calls events m') :
    Verdict m calls (events.map eraseId) m' := by
  rcases h with ⟨⟨contents, hsegment⟩, hfine⟩ | ⟨⟨hfailed, before, rfl, hbefore⟩, hrefused⟩
  · exact .inl ⟨⟨contents, hsegment.erased⟩, hfine⟩
  · refine .inr ⟨⟨hfailed, before.map eraseId, map_append, ?_⟩, hrefused⟩
    intro event hevent
    obtain ⟨raw, hraw, rfl⟩ := mem_map.mp hevent
    have hplace := hbefore raw hraw
    cases raw <;> exact hplace

def chunksIn (fromStr : Bytes → Except String Json) (data : List Bytes) : List Json :=
  data.filterMap fun data => (fromStr data).toOption

def callsIn (fromStr : Bytes → Except String Json) (data : List Bytes) : List Json :=
  (chunksIn fromStr data).flatMap callsOf

theorem callsIn_cons (data : Bytes) (rest : List Bytes) :
    callsIn fromStr (data :: rest) = callsIn fromStr [data] ++ callsIn fromStr rest := by
  rw [← singleton_append, callsIn, chunksIn, filterMap_append, flatMap_append]
  rfl

theorem listen_verdict (hm : Tidy m) (hstarted : m.phase = some .started)
    (hdata : data ≠ openaiDoneSentinel) (h : listen c fromStr m data = .ok (events, m')) :
    Verdict m (callsIn fromStr [data]) events m' := by
  obtain ⟨raw, hraw, rfl⟩ := listen_ok (not_failed_of_started hstarted) h
  rw [processData, if_neg hdata, transformDataEvent] at hraw
  rcases hchunk : fromStr data with e | chunk
  · rw [hchunk] at hraw
    cases hraw
  · rw [hchunk] at hraw
    dsimp only at hraw
    split at hraw
    · have hcalls : callsIn fromStr [data] = callsOf chunk := by
        simp [callsIn, chunksIn, hchunk, Except.toOption]
      rw [hcalls]
      exact (transformChunk_verdict hm hstarted hraw).erased
    · cases hraw

theorem run_verdict {payloads : List Bytes} (hm : Tidy m) (hstarted : m.phase = some .started)
    (hsentinel : openaiDoneSentinel ∉ payloads)
    (h : run (listen c fromStr) m payloads = .ok (events, m')) :
    Verdict m (callsIn fromStr payloads) events m' := by
  induction payloads generalizing m events with
  | nil =>
    cases h
    exact .of_segment (SameBlocks.segment ⟨rfl, rfl, rfl, rfl⟩ hm)
  | cons data rest ih =>
    obtain ⟨sent, m₁, later, hone, hrest, rfl⟩ := ChunkedRuns.run_cons_ok h
    rw [mem_cons, not_or] at hsentinel
    rw [callsIn_cons]
    rcases listen_verdict hm hstarted (Ne.symm hsentinel.1) hone with
      ⟨⟨contents, hsegment⟩, hfine⟩ | ⟨hbroken, hrefused⟩
    · exact .append hsegment hfine
        (ih hsegment.tidy (hsegment.phase.trans hstarted) hsentinel.2 hrest)
    · rw [listen_failed hbroken.failed] at hrest
      cases hrest
      rw [append_nil]
      refine .inr ⟨hbroken, ?_⟩
      rw [refusedBeyond_append]
      exact .inl hrefused

end Listening

section Afterwards

variable {c : Config} {fromStr : Bytes → Except String Json} {m m' : StreamMetadata}
  {events : List StreamEvent} {data : Bytes} {maxToolBlocks : ℕ}

def Silent (fromStr : Bytes → Except String Json) (data : Bytes) : Prop :=
  data ≠ openaiDoneSentinel ∧
    ∀ chunk, fromStr data = .ok chunk → contentOf chunk = none ∧ callsOf chunk = []

theorem shut_same (hm : Shut m) (h : SameBlocks m m') : Shut m' := by
  refine ⟨h.phase.trans hm.started, h.textBlockOpen.trans hm.text, fun key => ?_⟩
  rw [StreamMetadata.isToolBlockOpen, h.toolBlocks]
  exact hm.tools key

theorem transformDelta_silent {delta : Json} (hm : Shut m)
    (hcontent : (delta.get? "content").bind Json.asStr = none)
    (hcalls : ((delta.get? "tool_calls").bind Json.asArr).getD [] = []) :
    transformDelta maxToolBlocks delta m = .ok ([], m) := by
  rw [transformDelta, hcontent]
  dsimp only
  rw [resume_silent]
  rcases hfound : (delta.get? "tool_calls").bind Json.asArr with _ | toolCalls
  · rfl
  · rw [hfound] at hcalls
    cases hcalls
    dsimp only
    rw [closeTextBlockIfOpen, hm.text, if_neg Bool.false_ne_true, resume_silent]
    rfl

/-- With no block open, a delta with a text or a call is heard. -/
theorem transformDelta_loud {delta : Json} (hm : Shut m)
    (hloud : (delta.get? "content").bind Json.asStr ≠ none ∨
      ((delta.get? "tool_calls").bind Json.asArr).getD [] ≠ [])
    (h : transformDelta maxToolBlocks delta m = .ok (events, m')) : events ≠ [] := by
  rw [transformDelta] at h
  obtain ⟨sent, m₁, later, hfirst, hrest, rfl⟩ := resume_ok h
  rcases hcontent : (delta.get? "content").bind Json.asStr with _ | content
  · rw [hcontent] at hfirst
    cases hfirst
    have hcalls := hloud.resolve_left fun hne => hne hcontent
    rcases hfound : (delta.get? "tool_calls").bind Json.asArr with _ | toolCalls
    · rw [hfound] at hcalls
      exact absurd rfl hcalls
    rw [hfound] at hcalls hrest
    cases toolCalls with
    | nil => exact absurd rfl hcalls
    | cons tc rest =>
      dsimp only at hrest
      rw [closeTextBlockIfOpen, hm.text, if_neg Bool.false_ne_true, resume_silent,
        transformToolDeltas] at hrest
      obtain ⟨one, m₂, more, hone, -, rfl⟩ := resume_ok hrest
      -- no block is open, so the call opens one or is refused
      obtain ⟨hopen, -⟩ | ⟨-, -, rfl, -⟩ | ⟨id, name, -, -, rfl, -⟩ := transformToolDelta_cases hone
      · rw [hm.tools] at hopen
        cases hopen
      · simp
      · simp
  · rw [hcontent] at hfirst
    cases hfirst
    dsimp only [emitTextDelta]
    split <;> simp

theorem transformChunk_shut {id : ℕ} {chunk : Json} (hm : Shut m)
    (h : transformChunk c id chunk m = .ok (events, m')) :
    (events = [] ↔ contentOf chunk = none ∧ callsOf chunk = []) ∧ (events = [] → Shut m') := by
  rw [transformChunk, if_pos (isStarted_of_started hm.started), resume_silent] at h
  rw [contentOf, callsOf, deltaOf]
  generalize extractFirstChoice chunk = first at h ⊢
  rcases first with _ | choice
  · cases h
    exact ⟨⟨fun _ => ⟨rfl, rfl⟩, fun _ => rfl⟩, fun _ => shut_same hm extractUsageTokens_same⟩
  · obtain ⟨sent, m₁, later, hdelta, hlater, rfl⟩ := resume_ok h
    cases hlater
    rw [append_nil, Option.bind_some]
    generalize choice.get? "delta" = found at hdelta ⊢
    rcases found with _ | delta
    · cases hdelta
      exact ⟨⟨fun _ => ⟨rfl, rfl⟩, fun _ => rfl⟩,
        fun _ => shut_same (shut_same hm (noteFinish_same choice)) extractUsageTokens_same⟩
    · rw [Option.bind_some, Option.bind_some]
      by_cases hsilent : (delta.get? "content").bind Json.asStr = none ∧
          ((delta.get? "tool_calls").bind Json.asArr).getD [] = []
      · dsimp only at hdelta
        rw [transformDelta_silent hm hsilent.1 hsilent.2] at hdelta
        cases hdelta
        exact ⟨⟨fun _ => hsilent, fun _ => rfl⟩,
          fun _ => shut_same (shut_same hm (noteFinish_same choice)) extractUsageTokens_same⟩
      · have hloud := transformDelta_loud hm (not_and_or.mp hsilent) hdelta
        exact ⟨⟨fun hnil => absurd hnil hloud, fun h => absurd h hsilent⟩,
          fun hnil => absurd hnil hloud⟩

/-- A closed message hears of a data event unless it is silent. -/
theorem listen_shut (hm : Shut m) (h : listen c fromStr m data = .ok (events, m')) :
    (events = [] ↔ Silent fromStr data) ∧ (events = [] → Shut m') := by
  obtain ⟨raw, hraw, rfl⟩ := listen_ok (not_failed_of_started hm.started) h
  rw [map_eq_nil_iff, Silent]
  by_cases hdone : data = openaiDoneSentinel
  · have hsome : raw ≠ [] := by
      rw [processData, if_pos hdone, emitDone] at hraw
      rw [if_neg (by rw [not_failed_of_started hm.started]; decide)] at hraw
      obtain ⟨_, _, _, _, hrest, rfl⟩ := resume_ok hraw
      obtain ⟨_, _, _, _, hlast, rfl⟩ := resume_ok hrest
      cases hlast
      simp
    exact ⟨⟨fun hnil => absurd hnil hsome, fun hsilent => absurd hdone hsilent.1⟩,
      fun hnil => absurd hnil hsome⟩
  · rw [processData, if_neg hdone, transformDataEvent] at hraw
    rcases hchunk : fromStr data with e | chunk
    · rw [hchunk] at hraw
      cases hraw
    · rw [hchunk] at hraw
      dsimp only at hraw
      split at hraw
      · obtain ⟨hiff, hshut⟩ := transformChunk_shut hm hraw
        refine ⟨hiff.trans ⟨fun hsilent => ⟨hdone, ?_⟩, fun hsilent => hsilent.2 chunk rfl⟩, hshut⟩
        rintro chunk' ⟨⟩
        exact hsilent
      · cases hraw

theorem run_shut {post : List Bytes} (hm : Shut m)
    (h : run (listen c fromStr) m post = .ok (events, m')) :
    events = [] ↔ ∀ data ∈ post, Silent fromStr data := by
  induction post generalizing m events with
  | nil =>
    cases h
    simp
  | cons data rest ih =>
    obtain ⟨sent, m₁, later, hone, hrest, rfl⟩ := ChunkedRuns.run_cons_ok h
    obtain ⟨hiff, hshut⟩ := listen_shut hm hone
    rw [append_eq_nil_iff, forall_mem_cons, ← hiff]
    refine and_congr_right fun hnil => ?_
    exact ih (hshut hnil) hrest

end Afterwards

section Endings

variable {c : Config} {fromStr : Bytes → Except String Json} {m' : StreamMetadata}
  {events : List StreamEvent}

def isEnd : Place → Bool
  | .stop => true
  | .error => true
  | _ => false

/-- Only the last event can be terminal: there is at most one, and no event follows it. -/
def AtMostOnce (events : List StreamEvent) : Prop :=
  ∀ p ∈ (events.map place).dropLast, isEnd p = false

def Ends (events : List StreamEvent) : Prop := ∃ p ∈ events.map place, isEnd p = true

instance (events : List StreamEvent) : Decidable (AtMostOnce events) :=
  inferInstanceAs (Decidable (∀ p ∈ (events.map place).dropLast, isEnd p = false))

instance (events : List StreamEvent) : Decidable (Ends events) :=
  inferInstanceAs (Decidable (∃ p ∈ events.map place, isEnd p = true))

/-- After the first sentinel nothing has anything to add, unless a call was refused before it. -/
def Quiet (fromStr : Bytes → Except String Json) (data : List Bytes) : Prop :=
  ∀ pre post, data = pre ++ openaiDoneSentinel :: post → openaiDoneSentinel ∉ pre →
    Refused (callsIn fromStr pre) ∨ ∀ later ∈ post, Silent fromStr later

/-- The sentinel comes, or a call is refused. -/
def Concluded (fromStr : Bytes → Except String Json) (data : List Bytes) : Prop :=
  openaiDoneSentinel ∈ data ∨ Refused (callsIn fromStr data)

theorem keysOf_opening : keysOf opening = ∅ := by
  ext key
  exact iff_of_false (AList.notMem_empty key) (Set.notMem_empty key)

theorem place_started {id : ℕ} {model : String} {body : List StreamEvent}
    (hbody : ∀ event ∈ body, place event = .block) :
    ∀ p ∈ (StreamEvent.messageStart id model :: body).map place, isEnd p = false := by
  intro p hp
  obtain ⟨event, hevent, rfl⟩ := mem_map.mp hp
  rcases mem_cons.mp hevent with rfl | hevent
  · rfl
  · rw [hbody event hevent]
    rfl

theorem atMostOnce_of_open (h : ∀ p ∈ events.map place, isEnd p = false) :
    AtMostOnce events ∧ ¬Ends events := by
  refine ⟨fun p hp => h p (dropLast_subset _ hp), ?_⟩
  rintro ⟨p, hp, hend⟩
  rw [h p hp] at hend
  cases hend

/-- A first terminal event is the last event if there is nothing after it. -/
theorem atMostOnce_append {before later : List StreamEvent} {last : StreamEvent}
    (hbefore : ∀ p ∈ before.map place, isEnd p = false) (hlast : isEnd (place last) = true) :
    Ends (before ++ last :: later) ∧ (AtMostOnce (before ++ last :: later) ↔ later = []) := by
  refine ⟨⟨place last, by simp, hlast⟩, fun hmost => ?_, fun hnil => ?_⟩
  · by_contra hsome
    have hmem : place last ∈ ((before ++ last :: later).map place).dropLast := by
      rw [map_append, map_cons, dropLast_append_cons, dropLast_cons_of_ne_nil]
      · exact mem_append_right _ mem_cons_self
      · exact fun hnil => hsome (map_eq_nil_iff.mp hnil)
    rw [hmost _ hmem] at hlast
    cases hlast
  · subst hnil
    intro p hp
    rw [map_append, map_singleton, dropLast_concat] at hp
    exact hbefore p hp

theorem run_before {pre : List Bytes} (hpre : openaiDoneSentinel ∉ pre)
    (h : run (listen c fromStr) opening pre = .ok (events, m')) :
    (((∃ contents, Segment opening contents (callsIn fromStr pre) events m') ∧
      ¬Refused (callsIn fromStr pre)) ∨ (Broken events m' ∧ Refused (callsIn fromStr pre))) := by
  have hverdict := run_verdict opening_tidy rfl hpre h
  rwa [Verdict, keysOf_opening] at hverdict

theorem run_without_sentinel {data : List Bytes} (hdata : openaiDoneSentinel ∉ data)
    (h : run (listen c fromStr) .fresh data = .ok (events, m')) :
    AtMostOnce events ∧ (Ends events ↔ Refused (callsIn fromStr data)) := by
  by_cases hnil : data = []
  · subst hnil
    cases h
    obtain ⟨hmost, hopen⟩ := @atMostOnce_of_open [] (fun p hp => absurd hp not_mem_nil)
    exact ⟨hmost, iff_of_false hopen not_refusedBeyond_nil⟩
  · obtain ⟨model, later, rfl, hrun⟩ := run_opening hnil h
    rcases run_before hdata hrun with ⟨⟨contents, hsegment⟩, hfine⟩ |
      ⟨⟨-, before, rfl, hbefore⟩, hrefused⟩
    · obtain ⟨hmost, hopen⟩ := atMostOnce_of_open (place_started hsegment.blocks)
      exact ⟨hmost, iff_of_false hopen hfine⟩
    · obtain ⟨hends, hiff⟩ := @atMostOnce_append (.messageStart 0 model :: before) []
        StreamEvent.error (place_started hbefore) rfl
      exact ⟨hiff.mpr rfl, iff_of_true hends hrefused⟩

theorem run_with_sentinel {pre post : List Bytes} (hpre : openaiDoneSentinel ∉ pre)
    (h : run (listen c fromStr) .fresh (pre ++ openaiDoneSentinel :: post) = .ok (events, m')) :
    Ends events ∧ (AtMostOnce events ↔
      Refused (callsIn fromStr pre) ∨ ∀ later ∈ post, Silent fromStr later) := by
  obtain ⟨model, later, rfl, hrun⟩ := run_opening (by simp) h
  rw [run_append] at hrun
  obtain ⟨body, m₁, close, hbody, hclose, rfl⟩ := resume_ok hrun
  rcases run_before hpre hbody with ⟨⟨contents, hsegment⟩, hfine⟩ |
    ⟨⟨hfailed, before, rfl, hbefore⟩, hrefused⟩
  · have hstarted : m₁.phase = some .started := hsegment.phase
    obtain ⟨done, m₂, after, hdone, hafter, rfl⟩ := ChunkedRuns.run_cons_ok hclose
    obtain ⟨raw, hraw, rfl⟩ := listen_ok (not_failed_of_started hstarted) hdone
    rw [processData, if_pos rfl] at hraw
    obtain ⟨hclosed, hshut⟩ := emitDone_closed hsegment.tidy hstarted hraw
    obtain ⟨stops, final, stopReason, stopSequence, usage, hevents, hstops, -⟩ := hclosed.erased
    -- the message stop is the first terminal event, and what comes after it is heard or not
    have hparts : StreamEvent.messageStart 0 model :: (body ++ (raw.map eraseId ++ after)) =
        (.messageStart 0 model :: (body ++ stops) ++
          [.messageDelta stopReason stopSequence usage]) ++ .messageStop :: after := by
      rw [hevents]
      simp
    have hopen : ∀ p ∈ (StreamEvent.messageStart 0 model :: (body ++ stops) ++
        [StreamEvent.messageDelta stopReason stopSequence usage]).map place, isEnd p = false := by
      rw [map_append]
      intro p hp
      rcases mem_append.mp hp with hp | hp
      · refine place_started (fun event hevent => ?_) p hp
        rcases mem_append.mp hevent with hfirst | hsecond
        · exact hsegment.blocks event hfirst
        · obtain ⟨i, rfl⟩ := hstops event hsecond
          rfl
      · cases mem_singleton.mp hp
        rfl
    obtain ⟨hends, hiff⟩ := @atMostOnce_append _ after StreamEvent.messageStop hopen rfl
    rw [hparts]
    exact ⟨hends, hiff.trans ((run_shut hshut hafter).trans (or_iff_right hfine).symm)⟩
  · rw [listen_failed hfailed] at hclose
    cases hclose
    obtain ⟨hends, hiff⟩ := @atMostOnce_append (.messageStart 0 model :: before) []
      StreamEvent.error (place_started hbefore) rfl
    rw [append_nil]
    exact ⟨hends, iff_of_true (hiff.mpr rfl) (.inl hrefused)⟩

theorem run_ends {data : List Bytes}
    (h : run (listen c fromStr) .fresh data = .ok (events, m')) :
    (AtMostOnce events ↔ Quiet fromStr data) ∧ (Ends events ↔ Concluded fromStr data) := by
  by_cases hdone : openaiDoneSentinel ∈ data
  · constructor
    · constructor
      · rintro hmost pre post rfl hpre
        exact (run_with_sentinel hpre h).2.mp hmost
      · intro hquiet
        obtain ⟨pre, post, rfl, hpre⟩ := eq_append_cons_of_mem hdone
        exact (run_with_sentinel hpre h).2.mpr (hquiet pre post rfl hpre)
    · obtain ⟨pre, post, rfl, hpre⟩ := eq_append_cons_of_mem hdone
      exact iff_of_true (run_with_sentinel hpre h).1 (.inl hdone)
  · obtain ⟨hmost, hends⟩ := run_without_sentinel hdone h
    refine ⟨iff_of_true hmost ?_, hends.trans (or_iff_right hdone).symm⟩
    rintro pre post rfl -
    exact absurd (mem_append_right _ mem_cons_self) hdone

theorem Quiet.of_append {data more : List Bytes} (h : Quiet fromStr (data ++ more)) :
    Quiet fromStr data := by
  rintro pre post rfl hpre
  have hall := h pre (post ++ more) (by rw [append_assoc, cons_append]) hpre
  exact hall.imp_right fun hsilent later hlater => hsilent later (mem_append_left _ hlater)

end Endings

section Deliveries

inductive Ending where
  | waiting
  | closed
  | failed (failure : Failure)
  deriving DecidableEq

variable (c : Config) (fromStr : Bytes → Except String Json)

/-- What the client is sent by calls of the body hook, up to one that returns an error; the last
may end the stream. -/
def deliver (endOfStream : Bool) : List Call → Metadata → List StreamEvent × Ending
  | [], _ => ([], .waiting)
  | [call], m =>
    match onResponseBody c fromStr call.id call.body endOfStream m with
    | .error e => ([], .failed e)
    | .ok (events, _) => (events, if endOfStream then .closed else .waiting)
  | call :: rest, m =>
    match onResponseBody c fromStr call.id call.body false m with
    | .error e => ([], .failed e)
    | .ok (events, m') =>
      (events ++ (deliver endOfStream rest m').1, (deliver endOfStream rest m').2)

variable {c fromStr} {endOfStream : Bool} {m : Metadata}

theorem deliver_cons {call next : Call} {rest : List Call} :
    deliver c fromStr endOfStream (call :: next :: rest) m =
      match onResponseBody c fromStr call.id call.body false m with
      | .error e => ([], .failed e)
      | .ok (events, m') =>
        (events ++ (deliver c fromStr endOfStream (next :: rest) m').1,
          (deliver c fromStr endOfStream (next :: rest) m').2) := rfl

theorem respond_of_closed {calls : List Call}
    (h : (deliver c fromStr endOfStream calls m).2 = .closed) :
    ∃ m', respond c fromStr calls m = .ok ((deliver c fromStr endOfStream calls m).1, m') := by
  induction calls generalizing m with
  | nil => cases h
  | cons call rest ih =>
    cases rest with
    | nil =>
      rw [deliver] at h ⊢
      cases endOfStream with
      | false => split at h <;> cases h
      | true =>
        rcases hcall : onResponseBody c fromStr call.id call.body true m with e | ⟨events, m'⟩
        · rw [hcall] at h
          cases h
        · exact ⟨m', hcall⟩
    | cons next rest =>
      rw [deliver_cons] at h ⊢
      rcases hcall : onResponseBody c fromStr call.id call.body false m with e | ⟨events, m₁⟩
      · rw [hcall] at h
        cases h
      · rw [hcall] at h
        obtain ⟨m', hrest⟩ := ih h
        refine ⟨m', ?_⟩
        rw [respond, hcall, resume, hrest]
        exact cons_ne_nil _ _

theorem deliver_heard {calls : List Call} (harmed : m.armed = true) :
    ∃ data m', run (listen c fromStr) m.stream data =
        .ok ((deliver c fromStr endOfStream calls m).1.map eraseId, m') ∧
      data <+: remaining m (calls.flatMap Call.bytes) := by
  induction calls generalizing m with
  | nil => exact ⟨[], m.stream, rfl, nil_prefix⟩
  | cons call rest ih =>
    cases rest with
    | nil =>
      rw [deliver, flatMap_singleton, Call.bytes]
      rcases hcall : onResponseBody c fromStr call.id call.body endOfStream m with e | ⟨events, m'⟩
      · exact ⟨[], m.stream, rfl, nil_prefix⟩
      · cases endOfStream with
        | true => exact ⟨_, _, onResponseBody_last harmed hcall, prefix_rfl⟩
        | false =>
          obtain ⟨data, hhears⟩ := onResponseBody_hears harmed hcall
          obtain ⟨more, hmore, -⟩ := hhears.first []
          rw [append_nil] at hmore
          exact ⟨data, m'.stream, hhears.listens, hmore ▸ prefix_append _ _⟩
    | cons next rest =>
      rw [deliver_cons, flatMap_cons, Call.bytes]
      rcases hcall : onResponseBody c fromStr call.id call.body false m with e | ⟨events, m₁⟩
      · exact ⟨[], m.stream, rfl, nil_prefix⟩
      · obtain ⟨data, hhears⟩ := onResponseBody_hears harmed hcall
        obtain ⟨more, hmore, hgoes⟩ := hhears.first ((next :: rest).flatMap Call.bytes)
        obtain ⟨data', m', hrun', hfirst'⟩ := ih (hhears.armed.trans harmed)
        rw [hmore, map_append]
        by_cases hfailed : m₁.stream.isStreamFailed = true
        · rw [listen_failed hfailed] at hrun'
          refine ⟨data, m₁.stream, ?_, prefix_append _ _⟩
          rw [← (Prod.mk.inj (Except.ok.inj hrun')).1, append_nil]
          exact hhears.listens
        · rw [hgoes (Bool.eq_false_of_not_eq_true hfailed)]
          refine ⟨data ++ data', m', ?_, (prefix_append_right_inj data).mpr hfirst'⟩
          rw [run_append, hhears.listens, resume, hrun']

theorem atMostOnce_eraseId {events : List StreamEvent} :
    AtMostOnce (events.map eraseId) ↔ AtMostOnce events := by
  rw [AtMostOnce, AtMostOnce, map_place_eraseId]

theorem ends_eraseId {events : List StreamEvent} : Ends (events.map eraseId) ↔ Ends events := by
  rw [Ends, Ends, map_place_eraseId]

end Deliveries

/-- In every run, however it was cut and wherever it stopped, what is sent translates a first part
of the data events; at most one terminal event is sent and nothing after it exactly if that part is
quiet, and the run has ended exactly if it is concluded. A run that was closed has heard all. -/
theorem stream_ends_once (c : Config) (fromStr : Bytes → Except String Json) (calls : List Call)
    (endOfStream : Bool) :
    (∃ data m', data <+: heard (calls.flatMap Call.bytes) ∧
      run (listen c fromStr) .fresh data =
        .ok ((deliver c fromStr endOfStream calls .fresh).1.map eraseId, m') ∧
      (AtMostOnce (deliver c fromStr endOfStream calls .fresh).1 ↔ Quiet fromStr data) ∧
      (Ends (deliver c fromStr endOfStream calls .fresh).1 ↔ Concluded fromStr data)) ∧
    (Quiet fromStr (heard (calls.flatMap Call.bytes)) →
      AtMostOnce (deliver c fromStr endOfStream calls .fresh).1) ∧
    ((deliver c fromStr endOfStream calls .fresh).2 = .closed →
      ((AtMostOnce (deliver c fromStr endOfStream calls .fresh).1 ∧
          Ends (deliver c fromStr endOfStream calls .fresh).1) ↔
        Quiet fromStr (heard (calls.flatMap Call.bytes)) ∧
          Concluded fromStr (heard (calls.flatMap Call.bytes)))) := by
  obtain ⟨data, m', hrun, more, hmore⟩ := @deliver_heard c fromStr endOfStream .fresh calls rfl
  obtain ⟨hmost, hends⟩ := run_ends hrun
  rw [atMostOnce_eraseId] at hmost
  rw [ends_eraseId] at hends
  refine ⟨⟨data, m', ⟨more, hmore⟩, hrun, hmost, hends⟩, ?_, ?_⟩
  · intro hquiet
    refine hmost.mpr (@Quiet.of_append _ _ more ?_)
    rw [hmore]
    exact hquiet
  · intro hclosed
    obtain ⟨m', hrespond⟩ := respond_of_closed hclosed
    have hcalls : calls ≠ [] := by
      rintro rfl
      cases hclosed
    have hlisten := respond_ok hcalls rfl hrespond
    obtain ⟨hmost, hends⟩ := @run_ends c fromStr _ _ _ hlisten
    rw [← atMostOnce_eraseId, ← ends_eraseId]
    exact and_congr hmost hends

def readText (data : Bytes) : Except String Json :=
  if data = ascii "hi" then .ok textChunk else .error "expected value"

def deliverText (text : String) : List StreamEvent × Ending :=
  deliver ⟨64, 1, []⟩ readText true [⟨1, some (ascii text)⟩] .fresh

/-- The sentinel twice, a text after it, and a text without it. -/
theorem sentinel_not_remembered :
    ((deliverText "data: [DONE]\n\ndata: [DONE]\n\n").2 = .closed ∧
      ¬AtMostOnce (deliverText "data: [DONE]\n\ndata: [DONE]\n\n").1) ∧
    ((deliverText "data: [DONE]\n\ndata: hi\n\n").2 = .closed ∧
      ¬AtMostOnce (deliverText "data: [DONE]\n\ndata: hi\n\n").1) ∧
    (deliverText "data: hi\n\n").2 = .closed ∧ ¬Ends (deliverText "data: hi\n\n").1 := by
  decide +kernel

end AnthropicEndings
