import PraxisAi.BedrockStream

/-! # How a translated provider stream ends

A failure is remembered only for the closing of the stream: frames that come after it are still
translated. Each frame is marked here by what it holds, and the stream ends as it should exactly if
its marks are in order. -/
namespace BedrockEndings

open List
open SseFrames EventStreamFrames BatchedFrames BedrockTranslation BedrockStream

variable {fromSlice : PayloadReader}

section Marks

/-- What a frame does: nothing, a chunk, a failure that nobody is told of, or an error. -/
inductive Mark where
  | quiet
  | shown
  | hidden
  | report
  deriving DecidableEq

/-- The marks of a batch after `opened` tool calls, with the calls opened then; no value where a
frame overflows. A frame that is refused takes the rest of its batch with it. -/
def batchMarks (fromSlice : PayloadReader) (includeUsage : Bool) :
    ℕ → List EventStreamMessage → Option (List Mark × ℕ)
  | opened, [] => some ([], opened)
  | opened, msg :: rest =>
    if isQuiet fromSlice includeUsage msg then
      (batchMarks fromSlice includeUsage opened rest).map fun (ks, n) =>
        ((if msg.isException then .hidden else .quiet) :: ks, n)
    else if msg.isException then
      (batchMarks fromSlice includeUsage opened rest).map fun (ks, n) => (.report :: ks, n)
    else if !isSound fromSlice msg then some ([.report], opened)
    else if overflows fromSlice opened msg then none
    else
      (batchMarks fromSlice includeUsage (opened + (opensCall fromSlice msg).toNat) rest).map
        fun (ks, n) => (.shown :: ks, n)

def deliveries (maxFrameLen : ℕ) :
    Bytes → List Bytes → List (Except DecodeError (List EventStreamMessage))
  | _, [] => []
  | buf, chunk :: rest =>
    match drain (readFrame maxFrameLen) (buf ++ chunk) with
    | (msgs, .waiting buf') => .ok msgs :: deliveries maxFrameLen buf' rest
    | (_, .bad e buf') => .error e :: deliveries maxFrameLen buf' rest

def marks (fromSlice : PayloadReader) (includeUsage : Bool) :
    ℕ → List (Except DecodeError (List EventStreamMessage)) → Option (List Mark)
  | _, [] => some []
  | opened, .error _ :: rest => (marks fromSlice includeUsage opened rest).map (.report :: ·)
  | opened, .ok msgs :: rest =>
    match batchMarks fromSlice includeUsage opened msgs with
    | none => none
    | some (ks, opened) => (marks fromSlice includeUsage opened rest).map (ks ++ ·)

def outline (ks : List Mark) : List EventKind :=
  ks.filterMap fun
    | .quiet => none
    | .hidden => none
    | .shown => some .plain
    | .report => some .error

def Fails (ks : List Mark) : Prop := .report ∈ ks ∨ .hidden ∈ ks

/-- Nothing is shown or reported after the first report, and no failure goes unreported. -/
structure Orderly (ks : List Mark) : Prop where
  still : ∀ {pre post}, ks = pre ++ .report :: post → ∀ k ∈ post, k = .quiet ∨ k = .hidden
  told : .hidden ∈ ks → .report ∈ ks

theorem outline_append (ks ks' : List Mark) : outline (ks ++ ks') = outline ks ++ outline ks' :=
  filterMap_append

theorem outline_eq_nil {ks : List Mark} :
    outline ks = [] ↔ ∀ k ∈ ks, k = .quiet ∨ k = .hidden := by
  rw [outline, filterMap_eq_nil_iff]
  refine forall₂_congr fun k _ => ?_
  cases k <;> simp

theorem outline_plain {ks : List Mark} (h : .report ∉ ks) : ∀ kind ∈ outline ks, kind = .plain := by
  intro kind hmem
  obtain ⟨k, hk, hkind⟩ := mem_filterMap.mp hmem
  cases k with
  | quiet => cases hkind
  | hidden => cases hkind
  | shown => exact (Option.some.inj hkind).symm
  | report => exact absurd hk h

end Marks

section Endings

/-- The stream ends with the sentinel or an error, and holds neither before. -/
def EndsOnce (events : List SseEvent) : Prop :=
  ∃ before last, events = before ++ [last] ∧ kind last ≠ .plain ∧
    ∀ event ∈ before, kind event = .plain

/-- The same, on kinds of events. -/
def KindsEndOnce (kinds : List EventKind) : Prop :=
  ∃ before last, kinds = before ++ [last] ∧ last ≠ .plain ∧ ∀ k ∈ before, k = .plain

theorem endsOnce_iff (events : List SseEvent) :
    EndsOnce events ↔ KindsEndOnce (events.map kind) := by
  constructor
  · rintro ⟨before, last, rfl, hlast, hbefore⟩
    refine ⟨before.map kind, kind last, by simp, hlast, ?_⟩
    intro k hk
    obtain ⟨event, hevent, rfl⟩ := mem_map.mp hk
    exact hbefore event hevent
  · rintro ⟨before, last, hmap, hlast, hbefore⟩
    obtain ⟨front, rest, rfl, hfront, hrest⟩ := map_eq_append_iff.mp hmap
    obtain ⟨event, rfl, rfl⟩ := map_eq_singleton_iff.mp hrest
    refine ⟨front, event, rfl, hlast, ?_⟩
    intro event' hmem
    exact hbefore _ (hfront ▸ mem_map_of_mem hmem)

theorem kindsEndOnce_closing {ks : List Mark} (hks : ¬ Fails ks) {last : EventKind}
    (hlast : last ≠ .plain) : KindsEndOnce (outline ks ++ [last]) :=
  ⟨outline ks, last, rfl, hlast, outline_plain fun h => hks (.inl h)⟩

theorem orderly_of_not_fails {ks : List Mark} (hks : ¬ Fails ks) : Orderly ks := by
  refine ⟨?_, fun h => absurd (.inr h) hks⟩
  rintro pre post rfl
  exact absurd (.inl (mem_append_right _ mem_cons_self)) hks

/-- A failed stream ends once exactly if its marks are in order. -/
theorem kindsEndOnce_iff_orderly {ks : List Mark} (hks : Fails ks) :
    KindsEndOnce (outline ks) ↔ Orderly ks := by
  constructor
  · rintro ⟨before, last, houtline, hlast, hbefore⟩
    refine ⟨?_, fun _ => ?_⟩
    · rintro pre post rfl
      apply outline_eq_nil.mp
      rw [outline_append, show outline (.report :: post) = .error :: outline post from rfl]
        at houtline
      rcases eq_nil_or_concat (outline post) with hnil | ⟨init, final, hfinal⟩
      · exact hnil
      · -- Events after the report would put it among the plain ones.
        rw [hfinal, concat_eq_append, ← cons_append, ← append_assoc] at houtline
        have hfront := (append_inj' houtline rfl).1
        have herror : EventKind.error ∈ before :=
          hfront ▸ mem_append_right _ mem_cons_self
        cases hbefore _ herror
    · have hmem : last ∈ outline ks := houtline ▸ mem_append_right _ mem_cons_self
      by_contra hreport
      exact hlast (outline_plain hreport last hmem)
  · intro h
    have hreport : .report ∈ ks := hks.elim id h.told
    obtain ⟨pre, post, rfl, hpre⟩ := eq_append_cons_of_mem hreport
    have hpost := outline_eq_nil.mpr (h.still rfl)
    refine ⟨outline pre, .error, ?_, by decide, outline_plain hpre⟩
    rw [outline_append, show outline (.report :: post) = .error :: outline post from rfl, hpost]

end Endings

section Runs

variable {s s' : BedrockStreamingState} {msgs : List EventStreamMessage}

/-- The marks of a batch say what its translation sends and whether it fails. -/
structure Marked (s s' : BedrockStreamingState) (events : List SseEvent) (ks : List Mark) :
    Prop where
  kinds : events.map kind = outline ks
  failed : s'.failed = true ↔ s.failed = true ∨ Fails ks

theorem fails_append (ks ks' : List Mark) : Fails (ks ++ ks') ↔ Fails ks ∨ Fails ks' := by
  simp only [Fails, mem_append]
  tauto

theorem Marked.append {t : BedrockStreamingState} {events events' : List SseEvent}
    {ks ks' : List Mark} (h : Marked s t events ks) (h' : Marked t s' events' ks') :
    Marked s s' (events ++ events') (ks ++ ks') := by
  refine ⟨?_, ?_⟩
  · rw [map_append, h.kinds, h'.kinds, outline_append]
  · rw [h'.failed, h.failed, fails_append, or_assoc]

theorem noted_failed (msg : EventStreamMessage) :
    (s.noted msg).failed = true ↔ s.failed = true ∨ msg.isException = true := by
  rw [BedrockStreamingState.noted]
  split
  · rename_i hmsg
    exact ⟨fun _ => .inr hmsg, fun _ => rfl⟩
  · rename_i hmsg
    exact ⟨.inl, fun h => h.resolve_right hmsg⟩

theorem noted_streamState (msg : EventStreamMessage) :
    (s.noted msg).streamState = s.streamState := by
  rw [BedrockStreamingState.noted]
  split <;> rfl

/-- The marks of a batch go on after one that its translation has passed. -/
theorem batchMarks_cons {t : BedrockStreamingState} {msg : EventStreamMessage}
    {events : List SseEvent} {k : Mark} (hone : handleMessage fromSlice s msg = .next events t)
    (hmarked : Marked s t events [k])
    (hmarks : batchMarks fromSlice s.includeUsage s.streamState.toolCallIndex (msg :: msgs) =
      (batchMarks fromSlice t.includeUsage t.streamState.toolCallIndex msgs).map
        fun (ks, n) => (k :: ks, n))
    (ih : (batchMarks fromSlice t.includeUsage t.streamState.toolCallIndex msgs = none ∧
        appendTranslatedStreamEvents fromSlice t msgs = none) ∨
      ∃ ks events s', batchMarks fromSlice t.includeUsage t.streamState.toolCallIndex msgs =
          some (ks, s'.streamState.toolCallIndex) ∧
        appendTranslatedStreamEvents fromSlice t msgs = some (events, s') ∧ Marked t s' events ks) :
    (batchMarks fromSlice s.includeUsage s.streamState.toolCallIndex (msg :: msgs) = none ∧
        appendTranslatedStreamEvents fromSlice s (msg :: msgs) = none) ∨
      ∃ ks events s', batchMarks fromSlice s.includeUsage s.streamState.toolCallIndex
          (msg :: msgs) = some (ks, s'.streamState.toolCallIndex) ∧
        appendTranslatedStreamEvents fromSlice s (msg :: msgs) = some (events, s') ∧
        Marked s s' events ks := by
  rw [hmarks, appendTranslatedStreamEvents, hone]
  dsimp only
  rcases ih with ⟨hnone, hrest⟩ | ⟨ks, more, s', hks, hrest, hmore⟩
  · exact .inl ⟨by rw [hnone]; rfl, by rw [hrest]; rfl⟩
  · exact .inr ⟨k :: ks, events ++ more, s', by rw [hks]; rfl, by rw [hrest]; rfl,
      hmarked.append hmore⟩

/-- A batch is marked exactly if its translation comes to an end. -/
theorem batchMarks_spec (s : BedrockStreamingState) (msgs : List EventStreamMessage) :
    (batchMarks fromSlice s.includeUsage s.streamState.toolCallIndex msgs = none ∧
      appendTranslatedStreamEvents fromSlice s msgs = none) ∨
    ∃ ks events s', batchMarks fromSlice s.includeUsage s.streamState.toolCallIndex msgs =
        some (ks, s'.streamState.toolCallIndex) ∧
      appendTranslatedStreamEvents fromSlice s msgs = some (events, s') ∧
      Marked s s' events ks := by
  induction msgs generalizing s with
  | nil => exact .inr ⟨[], [], s, rfl, rfl, rfl, by simp [Fails]⟩
  | cons msg rest ih =>
    cases @handledAs fromSlice s msg with
    | quiet hquiet h =>
      refine batchMarks_cons (k := if msg.isException then .hidden else .quiet) h ⟨?_, ?_⟩ ?_ (ih _)
      · cases msg.isException <;> rfl
      · rw [noted_failed, Fails]
        cases msg.isException <;> simp
      · rw [batchMarks, if_pos hquiet, noted_includeUsage, noted_streamState]
    | shown value streamState hloud hkind h hframe =>
      have hquiet : ¬isQuiet fromSlice s.includeUsage msg = true := by simp [hloud]
      rcases hframe with ⟨hexception, rfl⟩ | ⟨hplain, hsound, hfits, hopened⟩
      · refine batchMarks_cons (k := .report) h ⟨?_, ?_⟩ ?_ (ih _)
        · rw [map_singleton, hkind, if_pos hexception]
          rfl
        · simp [BedrockStreamingState.withStreamState, noted_failed, hexception, Fails]
        · rw [batchMarks, if_neg hquiet, if_pos hexception]
          exact congrArg (fun u => (batchMarks fromSlice u _ rest).map _) noted_includeUsage.symm
      · have hplain' : ¬msg.isException = true := by simp [hplain]
        refine batchMarks_cons (k := .shown) h ⟨?_, ?_⟩ ?_ (ih _)
        · rw [map_singleton, hkind, if_neg hplain']
          rfl
        · simp [BedrockStreamingState.withStreamState, noted_failed, hplain, Fails]
        · rw [batchMarks, if_neg hquiet, if_neg hplain', hsound, if_neg (by simp), hfits,
            if_neg (by simp), ← hopened]
          exact congrArg (fun u => (batchMarks fromSlice u _ rest).map _) noted_includeUsage.symm
    | stopped event hloud hkind hplain h hunsound =>
      refine .inr ⟨[.report], [event], s.fail, ?_, ?_, ?_⟩
      · rw [batchMarks, if_neg (by simp [hloud]), if_neg (by simp [hplain]), hunsound]
        rfl
      · rw [appendTranslatedStreamEvents, h]
      · exact ⟨by rw [map_singleton, hkind]; rfl, by simp [Fails, BedrockStreamingState.fail]⟩
    | overflow hloud h hframe =>
      obtain ⟨hplain, hsound, hover⟩ := hframe
      refine .inl ⟨?_, by rw [appendTranslatedStreamEvents, h]⟩
      rw [batchMarks, if_neg (by simp [hloud]), if_neg (by simp [hplain]), hsound,
        if_neg (by simp), if_pos hover]

def marksOf (fromSlice : PayloadReader) (s : BedrockStreamingState) (chunks : List Bytes) :
    Option (List Mark) :=
  marks fromSlice s.includeUsage s.streamState.toolCallIndex
    (deliveries s.decoder.maxFrameLen s.decoder.buf chunks)

/-- The marks of the chunks say what the stream sends before its closing. -/
def Traced (fromSlice : PayloadReader) (s : BedrockStreamingState) (chunks : List Bytes) : Prop :=
  (marksOf fromSlice s chunks = none ∧ (feed fromSlice s chunks).2 = false) ∨
  ∃ ks events s', marksOf fromSlice s chunks = some ks ∧
    feed fromSlice s chunks = (events ++ closing s', true) ∧ Marked s s' events ks

theorem traced_cons {t : BedrockStreamingState} {chunk : Bytes} {rest : List Bytes}
    {first : List SseEvent} {ks : List Mark} (hcall : call fromSlice s chunk = some (first, t))
    (hfirst : Marked s t first ks)
    (hmarks : marksOf fromSlice s (chunk :: rest) = (marksOf fromSlice t rest).map (ks ++ ·))
    (hrest : Traced fromSlice t rest) : Traced fromSlice s (chunk :: rest) := by
  rcases hrest with ⟨hnone, hdead⟩ | ⟨ks', events, s', hks, hfeed, hmarked⟩
  · refine .inl ⟨by rw [hmarks, hnone]; rfl, ?_⟩
    rw [feed_some hcall]
    exact hdead
  · refine .inr ⟨ks ++ ks', first ++ events, s', by rw [hmarks, hks]; rfl, ?_,
      hfirst.append hmarked⟩
    rw [feed_some hcall, hfeed, append_assoc]

theorem traced (s : BedrockStreamingState) (chunks : List Bytes) : Traced fromSlice s chunks := by
  induction chunks generalizing s with
  | nil => exact .inr ⟨[], [], s, rfl, rfl, rfl, by simp [Fails]⟩
  | cons chunk rest ih =>
    rcases hdrain : drain (readFrame s.decoder.maxFrameLen) (s.decoder.buf ++ chunk) with
      ⟨msgs, buf | ⟨e, buf⟩⟩
    · have hcall := @call_waiting fromSlice s _ _ _ hdrain
      have hmarks : marksOf fromSlice s (chunk :: rest) =
          marks fromSlice s.includeUsage s.streamState.toolCallIndex
            (.ok msgs :: deliveries s.decoder.maxFrameLen buf rest) := by
        rw [marksOf, deliveries, hdrain]
      rw [marks] at hmarks
      rcases @batchMarks_spec fromSlice (withBuf s buf) msgs with ⟨hnone, htranslate⟩ | ⟨ks, events,
        t, hks, htranslate, hmarked⟩
      · rw [htranslate] at hcall
        refine .inl ⟨?_, by rw [feed_none hcall]⟩
        rw [hmarks, show batchMarks fromSlice s.includeUsage s.streamState.toolCallIndex msgs = none
          from hnone]
      · rw [htranslate] at hcall
        have hkeeps := keeps_translate htranslate
        refine traced_cons hcall ⟨hmarked.kinds, hmarked.failed⟩ ?_ (ih t)
        rw [hmarks, show batchMarks fromSlice s.includeUsage s.streamState.toolCallIndex msgs = _
          from hks, marksOf, hkeeps.decoder, hkeeps.includeUsage]
        rfl
    · have hcall := @call_bad fromSlice s _ _ _ _ hdrain
      have hfirst : Marked s (withBuf s buf).fail [decodeError e] [.report] :=
        ⟨rfl, by simp [Fails, BedrockStreamingState.fail]⟩
      refine traced_cons hcall hfirst ?_ (ih _)
      rw [marksOf, deliveries, hdrain, marks]
      rfl

theorem closing_kind (h : ¬ s.failed = true) : ∃ last, closing s = [last] ∧ kind last ≠ .plain := by
  rw [closing, if_neg h]
  split
  · exact ⟨_, rfl, by rw [kind_sseError]; decide⟩
  split
  · exact ⟨_, rfl, by rw [kind_sseError]; decide⟩
  · exact ⟨_, rfl, by decide⟩

/-- A stream ends once, with the sentinel or with its only error, exactly if its marks are in
order. -/
theorem stream_ends_once_iff (fromSlice : PayloadReader) (now maxFrameBytes : ℕ)
    (model responseId includeUsage : Option String) (chunk : Bytes) (rest : List Bytes) :
    ((respond fromSlice now maxFrameBytes ⟨model, responseId, includeUsage, none⟩
        (chunk :: rest)).2 = true ∧
      EndsOnce (respond fromSlice now maxFrameBytes ⟨model, responseId, includeUsage, none⟩
        (chunk :: rest)).1) ↔
    ∃ ks, marks fromSlice (includeUsage == some "true") 0
        (deliveries maxFrameBytes [] (chunk :: rest)) = some ks ∧ Orderly ks := by
  rw [respond_eq_feed _ _ _ (cons_ne_nil _ _)]
  generalize hs : FilterContext.begin ⟨model, responseId, includeUsage, none⟩ now
    maxFrameBytes = s
  have hfresh : s.failed = false := by rw [← hs]; rfl
  have hmarks : marks fromSlice (includeUsage == some "true") 0
      (deliveries maxFrameBytes [] (chunk :: rest)) = marksOf fromSlice s (chunk :: rest) := by
    rw [← hs]
    rfl
  rw [hmarks, show (FilterContext.mk model responseId includeUsage none).streaming.getD s = s from
    rfl]
  rcases @traced fromSlice s (chunk :: rest) with ⟨hnone, hdead⟩ | ⟨ks, events, s', hks, hfeed,
    hmarked⟩
  · rw [hnone, hdead]
    simp
  · have hfailed : s'.failed = true ↔ Fails ks := by
      rw [hmarked.failed, hfresh]
      simp
    have hgoal : EndsOnce (events ++ closing s') ↔ Orderly ks := by
      rw [endsOnce_iff, map_append, hmarked.kinds]
      by_cases hfails : Fails ks
      · rw [closing_failed (hfailed.mpr hfails), map_nil, append_nil]
        exact kindsEndOnce_iff_orderly hfails
      · obtain ⟨last, hclosing, hlast⟩ := closing_kind (mt hfailed.mp hfails)
        rw [hclosing, map_singleton]
        exact iff_of_true (kindsEndOnce_closing hfails hlast) (orderly_of_not_fails hfails)
    rw [hks, hfeed, hgoal]
    simp

/-- A chunk after a broken frame is still translated. -/
theorem chunk_after_error :
    ¬ EndsOnce (respond readEmptyObject 0 defaultMaxBodyBytes ⟨some "m", none, none, none⟩
      [emptyPrelude, startFrame]).1 := by
  intro hends
  rw [respond_eq_feed _ _ _ (cons_ne_nil _ _)] at hends
  generalize hs : (FilterContext.mk (some "m") none none none).streaming.getD _ = s at hends
  have hbuf : s.decoder.buf = [] := by rw [← hs]; rfl
  have hmax : 67 ≤ s.decoder.maxFrameLen := by rw [← hs]; decide
  have hprelude := @drain_emptyPrelude s.decoder.maxFrameLen []
  rw [append_nil] at hprelude
  have hbad : call readEmptyObject s emptyPrelude =
      some ([decodeError (.frameTooShort 0)], (withBuf s []).fail) :=
    @call_bad _ _ _ [] _ _ (by rw [hbuf, nil_append]; exact hprelude)
  obtain ⟨value, s', hkind, hcall, -, hfailed⟩ :=
    @call_startFrame readEmptyObject (withBuf s []).fail rfl hmax
  rw [feed_some hbad, feed_some hcall, feed, closing_failed (hfailed rfl)] at hends
  obtain ⟨before, last, hevents, hlast, -⟩ := hends
  have hfinal : .data value = last := by simpa using congrArg List.getLast? hevents
  exact hlast (hfinal ▸ hkind)

end Runs

end BedrockEndings
