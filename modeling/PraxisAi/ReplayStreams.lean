import PraxisAi.MemoryStore
import PraxisAi.SseFraming
import PraxisAi.Utf8Text

/-! # Replay of a stored event log

A finished response is streamed again from the events that were stored for it: page after page in
the order of their sequence numbers, each event encoded as a frame, up to the terminal one. -/
namespace ReplayStreams

open List
open MemoryStore SseFrames SseFraming ChunkedRuns Utf8Text SaturatingArithmetic

/-! ## The body of a replay -/

def replayPageLimit : ℕ := 256

structure Rejection where
  status : ℕ
  kind : String
  message : String
  deriving DecidableEq

def noReplayLogMessage : String :=
  "This response has no replayable event stream. Only responses created with stream=true and " ++
    "stored by the proxy can be replayed."

/-- The sequence number of the terminal event, where there is one. -/
def ensureReplayableLog (inner : Inner) (owner : StateOwner) (id : String) : Except Rejection ℕ :=
  match eventLogStatus inner owner id with
  | .replayable maxSequence => .ok maxSequence
  | .absent => .error ⟨400, "invalid_request_error", noReplayLogMessage⟩
  | .incomplete _ => .error ⟨400, "invalid_request_error", noReplayLogMessage⟩

structure ReplayStreamBody where
  responseId : String
  cursor : Option ℕ
  terminalSequence : ℕ
  done : Bool
  deriving DecidableEq

def ReplayStreamBody.new (responseId : String) (startingAfter : Option ℕ)
    (terminalSequence : ℕ) : ReplayStreamBody :=
  ⟨responseId, startingAfter, terminalSequence, false⟩

inductive FilterError where
  | store (e : StoreError)
  | text (message : String)
  deriving DecidableEq

def dataField (line : Bytes) : Bytes := ascii "data: " ++ line ++ [lf]

/-- One `data:` field for each line of the payload. -/
def encodeReplayEvent (event : ResponseEventRecord) : Bytes :=
  ascii "event: " ++ ascii event.eventType ++ [lf] ++
    (event.payload.splitOn lf).flatMap dataField ++ [lf]

/-- The loop over the events of a page; it ends at a terminal one. -/
def encodePage : List ResponseEventRecord → ReplayStreamBody → Bytes × ReplayStreamBody
  | [], body => ([], body)
  | event :: rest, body =>
    let body := { body with cursor := some event.sequenceNumber }
    if event.terminal then (encodeReplayEvent event, { body with done := true })
    else (encodeReplayEvent event ++ (encodePage rest body).1, (encodePage rest body).2)

def truncated (id : String) : FilterError :=
  .text ("openai_responses_store: replay log for " ++ id ++
    " was truncated before its terminal event")

def nextChunk (page : Except StoreError (List ResponseEventRecord)) (body : ReplayStreamBody) :
    Except FilterError (Option Bytes) × ReplayStreamBody :=
  if body.done then (.ok none, body)
  else match page with
    | .error e => (.error (.store e), body)
    | .ok [] =>
      -- an empty page is the end only behind the terminal event
      if body.cursor.any (body.terminalSequence ≤ ·) then (.ok none, { body with done := true })
      else (.error (truncated body.responseId), { body with done := true })
    | .ok (event :: rest) =>
      (.ok (some (encodePage (event :: rest) body).1), (encodePage (event :: rest) body).2)

def readPage (inner : Inner) (owner : StateOwner) (body : ReplayStreamBody) :
    Except StoreError (List ResponseEventRecord) :=
  .ok (listEventsAfter inner owner body.responseId body.cursor replayPageLimit)

/-- What a reader pulls from the body, one call for each state the store is in at the time. -/
def pulls (owner : StateOwner) : List Inner → ReplayStreamBody →
    List (Except FilterError (Option Bytes))
  | [], _ => []
  | inner :: later, body =>
    (nextChunk (readPage inner owner body) body).1 ::
      pulls owner later (nextChunk (readPage inner owner body) body).2

/-! ## Reading frames back -/

section Parsing

def reading (limit : ℕ) (line : Bytes) (eventType : Option String) (data : Bytes)
    (hasData : Bool) : SseFrameParser :=
  SseFrameParser.recount ⟨.past, line, eventType, data, hasData, false, 0, limit⟩

variable {limit : ℕ} {line data : Bytes} {eventType : Option String} {hasData : Bool}

theorem retained_reading : retained (reading limit line eventType data hasData) =
    line.length + data.length + eventType.elim 0 String.utf8ByteSize := by
  simp [retained, reading, SseFrameParser.recount, SseFrameParser.bomPrefixLen]

theorem counted_reading : Counted (reading limit line eventType data hasData) :=
  counted_recount _

theorem checked_reading (frames : List SseFrame)
    (hfits : line.length + data.length + eventType.elim 0 String.utf8ByteSize ≤ limit) :
    checked frames (reading limit line eventType data hasData) =
      .ok (frames, reading limit line eventType data hasData) := by
  have hscratch : (reading limit line eventType data hasData).scratchBytes ≤ limit := by
    have hcount := @counted_reading limit line data eventType hasData
    rw [Counted, bufferedBytes_eq, retained_reading] at hcount
    omega
  have hmax : (reading limit line eventType data hasData).maxBufferBytes = limit := rfl
  rw [checked, SseFrameParser.checkBufferLimit, hmax, if_neg (by omega)]

theorem takeByte_reading (b : UInt8) (hb : ¬(b = lf ∨ b = cr))
    (hfits : line.length + 1 + data.length + eventType.elim 0 String.utf8ByteSize ≤ limit) :
    takeByte (reading limit line eventType data hasData) b =
      .ok ([], reading limit (line ++ [b]) eventType data hasData) := by
  rw [takeByte_eq_readByte rfl, readByte, matchBom_past rfl, if_neg hb, leaveStart_self rfl,
    pushByte]
  have hnext : ({ reading limit line eventType data hasData with
      lineBuf := (reading limit line eventType data hasData).lineBuf ++ [b]
      scratchBytes := satAdd u64Max (reading limit line eventType data hasData).scratchBytes 1 } :
        SseFrameParser) = reading limit (line ++ [b]) eventType data hasData := by
    have hcounted := counted_push (@counted_reading limit line data eventType hasData) b
    rw [← Counted.recount hcounted]
    rfl
  rw [hnext]
  apply checked_reading
  simp only [length_append, length_singleton]
  omega

theorem run_text : ∀ (text line : Bytes), (∀ b ∈ text, ¬(b = lf ∨ b = cr)) →
    line.length + text.length + data.length + eventType.elim 0 String.utf8ByteSize ≤ limit →
    run takeByte (reading limit line eventType data hasData) text =
      .ok ([], reading limit (line ++ text) eventType data hasData)
  | [], line, _, _ => by rw [run, append_nil]
  | b :: text, line, htext, hfits => by
    rw [forall_mem_cons] at htext
    rw [length_cons] at hfits
    have hlength : (line ++ [b]).length = line.length + 1 := by simp
    rw [run, takeByte_reading b htext.1 (by omega), resume_silent,
      run_text text (line ++ [b]) htext.2 (by omega), append_assoc]
    rfl

theorem ascii_event : ascii "event: " = [101, 118, 101, 110, 116, 58, 32] := by decide

theorem ascii_data : ascii "data: " = [100, 97, 116, 97, 58, 32] := by decide

theorem takeLf_reading : takeByte (reading limit line eventType data hasData) lf =
    checked (reading limit line eventType data hasData).processLine.1.toList
      { ({ (reading limit line eventType data hasData).processLine.2 with lineBuf := [] } :
          SseFrameParser).recount with prevCr := false } := by
  rw [takeByte_eq_readByte rfl, readByte, matchBom_past rfl, if_pos (.inl rfl),
    leaveStart_self rfl, endLine]
  rfl

theorem processLine_event (value : Bytes) :
    (reading limit (ascii "event: " ++ value) eventType data hasData).processLine =
      (none, (reading limit (ascii "event: " ++ value) eventType data hasData).takeField
        (ascii "event") value) := by
  have hfield : ascii "event" = [101, 118, 101, 110, 116] := by decide
  rw [SseFrameParser.processLine]
  simp only [reading, SseFrameParser.recount, ascii_event, hfield, SseFrameParser.fieldValue,
    cons_append, nil_append]
  rfl

theorem processLine_data (value : Bytes) :
    (reading limit (ascii "data: " ++ value) eventType data hasData).processLine =
      (none, (reading limit (ascii "data: " ++ value) eventType data hasData).takeField
        (ascii "data") value) := by
  have hfield : ascii "data" = [100, 97, 116, 97] := by decide
  rw [SseFrameParser.processLine]
  simp only [reading, SseFrameParser.recount, ascii_data, hfield, SseFrameParser.fieldValue,
    cons_append, nil_append]
  rfl

theorem takeLf_event (name : String)
    (hfits : data.length + name.utf8ByteSize ≤ limit) :
    takeByte (reading limit (ascii "event: " ++ ascii name) eventType data hasData) lf =
      .ok ([], reading limit [] (some name) data hasData) := by
  have hdata : ascii "event" ≠ ascii "data" := by decide
  rw [takeLf_reading, processLine_event, SseFrameParser.takeField, if_neg hdata, if_pos rfl,
    fromUtf8Lossy_ascii]
  exact @checked_reading limit [] data (some name) hasData [] (by simpa using hfits)

theorem takeLf_data (value : Bytes)
    (hfits : ((if hasData then data ++ [lf] else data) ++ value).length +
      eventType.elim 0 String.utf8ByteSize ≤ limit) :
    takeByte (reading limit (ascii "data: " ++ value) eventType data hasData) lf =
      .ok ([], reading limit [] eventType
        ((if hasData then data ++ [lf] else data) ++ value) true) := by
  rw [takeLf_reading, processLine_data, SseFrameParser.takeField, if_pos rfl]
  exact @checked_reading limit [] _ eventType true [] (by
    rw [length_nil, Nat.zero_add]
    exact hfits)

theorem takeLf_blank :
    takeByte (reading limit [] eventType data true) lf =
      .ok ([⟨eventType, data⟩], reading limit [] none [] false) := by
  rw [takeLf_reading]
  exact @checked_reading limit [] [] none false _ (Nat.zero_le _)

theorem run_line {text : Bytes} (htext : ∀ b ∈ text, ¬(b = lf ∨ b = cr)) {p' : SseFrameParser}
    {frames : List SseFrame}
    (hfits : text.length + data.length + eventType.elim 0 String.utf8ByteSize ≤ limit)
    (hend : takeByte (reading limit text eventType data hasData) lf = .ok (frames, p')) :
    run takeByte (reading limit [] eventType data hasData) (text ++ [lf]) = .ok (frames, p') := by
  rw [run_append, run_text text [] htext (by simpa using hfits), resume_silent, nil_append,
    run, hend, resume]
  simp only [run, append_nil]

theorem ascii_lead_clean {lead : String} (h : lead = "event: " ∨ lead = "data: ") :
    ∀ b ∈ ascii lead, ¬(b = lf ∨ b = cr) := by
  have hall : (ascii lead).all (fun b => !(b == lf || b == cr)) = true := by
    rcases h with rfl | rfl
    · rw [ascii_event]
      decide
    · rw [ascii_data]
      decide
  intro b hb
  simpa using all_eq_true.mp hall b hb

theorem run_eventLine (name : String) (hname : ∀ b ∈ ascii name, ¬(b = lf ∨ b = cr))
    (hfits : 7 + name.utf8ByteSize + data.length + eventType.elim 0 String.utf8ByteSize ≤ limit) :
    run takeByte (reading limit [] eventType data hasData)
        (ascii "event: " ++ ascii name ++ [lf]) =
      .ok ([], reading limit [] (some name) data hasData) := by
  have hlead : (ascii "event: ").length = 7 := by rw [ascii_event]; rfl
  have hlength : (ascii name).length = name.utf8ByteSize := rfl
  apply run_line
  · intro b hb
    rcases mem_append.mp hb with hb | hb
    · exact ascii_lead_clean (.inl rfl) b hb
    · exact hname b hb
  · rw [length_append, hlead, hlength]
    exact hfits
  · exact takeLf_event name (by omega)

def joined (data : Bytes) (hasData : Bool) : List Bytes → Bytes
  | [] => data
  | line :: rest => joined ((if hasData then data ++ [lf] else data) ++ line) true rest

theorem length_joined_step (line : Bytes) :
    ((if hasData then data ++ [lf] else data) ++ line).length ≤ data.length + line.length + 1 := by
  cases hasData with
  | true =>
    simp only [if_true, length_append, length_singleton]
    omega
  | false =>
    simp only [Bool.false_eq_true, if_false, length_append]
    omega

theorem run_dataLines : ∀ (lines : List Bytes) (data : Bytes) (hasData : Bool),
    (∀ line ∈ lines, ∀ b ∈ line, ¬(b = lf ∨ b = cr)) → lines ≠ [] →
    (lines.flatMap dataField).length + data.length +
      eventType.elim 0 String.utf8ByteSize ≤ limit →
    run takeByte (reading limit [] eventType data hasData)
        (lines.flatMap dataField) =
      .ok ([], reading limit [] eventType (joined data hasData lines) true)
  | [], _, _, _, hne, _ => absurd rfl hne
  | line :: rest, data, hasData, hclean, _, hfits => by
    rw [forall_mem_cons] at hclean
    have hlead : (ascii "data: ").length = 6 := by rw [ascii_data]; rfl
    rw [flatMap_cons, length_append, dataField, length_append, length_append,
      hlead, length_singleton] at hfits
    have hgrow := @length_joined_step data hasData line
    have hfirst : run takeByte (reading limit [] eventType data hasData) (dataField line) =
          .ok ([], reading limit [] eventType
            ((if hasData then data ++ [lf] else data) ++ line) true) := by
      apply run_line
      · intro b hb
        rcases mem_append.mp hb with hb | hb
        · exact ascii_lead_clean (.inr rfl) b hb
        · exact hclean.1 b hb
      · rw [length_append, hlead]
        omega
      · exact takeLf_data line (by omega)
    rw [flatMap_cons, run_append, hfirst, resume_silent]
    cases rest with
    | nil => rw [flatMap_nil, run, joined, joined]
    | cons next rest =>
      rw [run_dataLines (next :: rest) _ true hclean.2 (cons_ne_nil _ _) (by omega)]
      rfl

theorem joined_true (data : Bytes) (lines : List Bytes) :
    joined data true lines = data ++ lines.flatMap fun line => lf :: line := by
  induction lines generalizing data with
  | nil => rw [joined, flatMap_nil, append_nil]
  | cons line rest ih =>
    rw [joined, ih, if_pos rfl, flatMap_cons]
    simp

theorem joined_intercalate (lines : List Bytes) :
    joined [] false lines = [lf].intercalate lines := by
  cases lines with
  | nil => rfl
  | cons line rest =>
    rw [joined, if_neg Bool.false_ne_true, nil_append, joined_true]
    induction rest generalizing line with
    | nil => simp [List.intercalate]
    | cons next rest ih =>
      rw [flatMap_cons, intercalate_cons_cons, ← ih next]
      simp

theorem mem_splitOn {sep : UInt8} : ∀ {bytes line : Bytes}, line ∈ bytes.splitOn sep →
    ∀ b ∈ line, b ∈ bytes ∧ b ≠ sep
  | [], line, hline, b, hb => by
    obtain rfl : line = [] := by simpa using hline
    cases hb
  | c :: bytes, line, hline, b, hb => by
    rw [List.splitOn, splitOnP_cons_eq_if_modifyHead] at hline
    by_cases hc : (c == sep) = true
    · rw [if_pos hc] at hline
      rcases mem_cons.mp hline with rfl | hline
      · cases hb
      · obtain ⟨hmem, hne⟩ := mem_splitOn hline b hb
        exact ⟨mem_cons_of_mem _ hmem, hne⟩
    · rw [if_neg hc] at hline
      cases hparts : bytes.splitOnP (· == sep) with
      | nil => exact absurd hparts (splitOnP_ne_nil _ _)
      | cons first rest =>
        have hall : ∀ part ∈ first :: rest, ∀ b ∈ part, b ∈ bytes ∧ b ≠ sep := by
          intro part hpart
          rw [← hparts] at hpart
          exact mem_splitOn hpart
        rw [hparts, modifyHead_cons] at hline
        rcases mem_cons.mp hline with rfl | hline
        · rcases mem_cons.mp hb with rfl | hb
          · exact ⟨mem_cons_self, by simpa using hc⟩
          · obtain ⟨hmem, hne⟩ := hall first mem_cons_self b hb
            exact ⟨mem_cons_of_mem _ hmem, hne⟩
        · obtain ⟨hmem, hne⟩ := hall line (mem_cons_of_mem _ hline) b hb
          exact ⟨mem_cons_of_mem _ hmem, hne⟩

end Parsing

/-- An event whose type and payload can be told apart from the lines around them. -/
structure Encodable (event : ResponseEventRecord) : Prop where
  eventType : ∀ b ∈ ascii event.eventType, ¬(b = lf ∨ b = cr)
  payload : cr ∉ event.payload

def frameFor (event : ResponseEventRecord) : SseFrame := ⟨some event.eventType, event.payload⟩

section Events

variable {limit : ℕ}

/-- An encoded event is read back as its type and its payload. -/
theorem run_encodeReplayEvent {event : ResponseEventRecord} (h : Encodable event)
    (hfits : (encodeReplayEvent event).length ≤ limit) :
    run takeByte (reading limit [] none [] false) (encodeReplayEvent event) =
      .ok ([frameFor event], reading limit [] none [] false) := by
  have hlead : (ascii "event: ").length = 7 := by rw [ascii_event]; rfl
  have hname : (ascii event.eventType).length = event.eventType.utf8ByteSize := rfl
  rw [encodeReplayEvent, length_append, length_append, length_append,
    length_append, hlead, hname, length_singleton] at hfits
  have hlines : ∀ line ∈ event.payload.splitOn lf, ∀ b ∈ line, ¬(b = lf ∨ b = cr) := by
    intro line hline b hb
    obtain ⟨hmem, hne⟩ := mem_splitOn hline b hb
    rintro (rfl | rfl)
    · exact hne rfl
    · exact h.payload hmem
  have hjoin : joined [] false (event.payload.splitOn lf) = event.payload := by
    rw [joined_intercalate, intercalate_splitOn]
  rw [encodeReplayEvent, run_append, run_append,
    run_eventLine event.eventType h.eventType
      (by simp only [length_nil, Option.elim_none]; omega),
    resume_silent,
    run_dataLines _ [] false hlines (splitOnP_ne_nil _ _)
      (by simp only [length_nil, Option.elim_some]; omega), hjoin, resume_silent, run,
    takeLf_blank, resume]
  simp only [run, append_nil]
  rfl

theorem run_encodeAll : ∀ (events : List ResponseEventRecord), (∀ e ∈ events, Encodable e) →
    (∀ e ∈ events, (encodeReplayEvent e).length ≤ limit) →
    run takeByte (reading limit [] none [] false) (events.flatMap encodeReplayEvent) =
      .ok (events.map frameFor, reading limit [] none [] false)
  | [], _, _ => rfl
  | event :: rest, hencodable, hfits => by
    rw [forall_mem_cons] at hencodable hfits
    rw [flatMap_cons, run_append, run_encodeReplayEvent hencodable.1 hfits.1, resume,
      run_encodeAll rest hencodable.2 hfits.2]
    rfl

theorem run_new (b : UInt8) (hb : utf8Bom[0]? ≠ some b) (rest : Bytes) :
    run takeByte (.new limit) (b :: rest) =
      run takeByte (reading limit [] none [] false) (b :: rest) := by
  have hstep : takeByte (.new limit) b = takeByte (reading limit [] none [] false) b := by
    rw [takeByte_eq_readByte rfl, takeByte_eq_readByte rfl, (Fresh.new limit).readByte_other hb]
    rfl
  rw [run, run, hstep]

/-- A reader of the encoded events, cut anywhere, finds them one after the other. -/
theorem parse_encodeAll (events : List ResponseEventRecord) (hencodable : ∀ e ∈ events, Encodable e)
    (hfits : ∀ e ∈ events, (encodeReplayEvent e).length ≤ limit) :
    ∃ p, parseChunk (.new limit) (events.flatMap encodeReplayEvent) =
      (.ok (events.map frameFor), p) ∧ p.hasIncompleteFrame = false := by
  have houtcome := parseChunk_eq_run (counted_new limit) (events.flatMap encodeReplayEvent)
  cases events with
  | nil => exact ⟨_, rfl, rfl⟩
  | cons event rest =>
    have hrun := run_encodeAll (event :: rest) hencodable hfits
    have hbytes : ∃ more, (event :: rest).flatMap encodeReplayEvent = 101 :: more := by
      rw [flatMap_cons, encodeReplayEvent, ascii_event]
      exact ⟨_, rfl⟩
    obtain ⟨more, hmore⟩ := hbytes
    rw [hmore] at hrun houtcome ⊢
    rw [run_new 101 (by decide) more, hrun] at houtcome
    rcases hcall : parseChunk (.new limit) (101 :: more) with ⟨e | frames, p⟩
    · rw [hcall] at houtcome
      cases houtcome
    · rw [hcall] at houtcome
      cases houtcome
      exact ⟨_, rfl, rfl⟩

end Events

/-! ## Paging through the log -/

/-- A log with one event for each sequence number and one terminal event, the last. -/
structure ReplayableLog (log : List ResponseEventRecord) (terminal : ResponseEventRecord) :
    Prop where
  distinct : (log.map ResponseEventRecord.sequenceNumber).Nodup
  mem : terminal ∈ log
  isTerminal : terminal.terminal = true
  others : ∀ e ∈ log, e ≠ terminal →
    e.terminal = false ∧ e.sequenceNumber < terminal.sequenceNumber
  encodable : ∀ e ∈ log, Encodable e

structure Tail (log : List ResponseEventRecord) (cursor : Option ℕ)
    (events : List ResponseEventRecord) : Prop where
  sorted : events.Pairwise fun a b => a.sequenceNumber < b.sequenceNumber
  mem : ∀ e, e ∈ events ↔ e ∈ log ∧ ∀ c ∈ cursor, c < e.sequenceNumber

section Paging

variable {inner : Inner} {owner : StateOwner} {id : String}
  {log events : List ResponseEventRecord} {terminal : ResponseEventRecord} {cursor : Option ℕ}

theorem Tail.eq_mergeSort (htail : Tail log cursor events)
    (hdistinct : (log.map ResponseEventRecord.sequenceNumber).Nodup) :
    ((log.filter fun e => cursor.all fun c => decide (c < e.sequenceNumber)).mergeSort
      fun a b => decide (a.sequenceNumber ≤ b.sequenceNumber)) = events := by
  have hmem : ∀ e, e ∈ log.filter (fun e => cursor.all fun c => decide (c < e.sequenceNumber)) ↔
      e ∈ events := by
    intro e
    rw [htail.mem, mem_filter]
    cases cursor with
    | none => simp
    | some c => simp
  have hperm := (mergeSort_perm (log.filter fun e => cursor.all fun c =>
    decide (c < e.sequenceNumber)) fun a b => decide (a.sequenceNumber ≤ b.sequenceNumber)).trans
      ((perm_ext_iff_of_nodup ((List.Nodup.of_map _ hdistinct).filter _)
        (htail.sorted.imp fun hlt heq => by rw [heq] at hlt; exact Nat.lt_irrefl _ hlt)).mpr hmem)
  refine hperm.eq_of_pairwise ?_
    ((List.pairwise_mergeSort (by simp; omega) (by simp; omega) _).imp of_decide_eq_true)
    (htail.sorted.imp Nat.le_of_lt)
  intro a b ha hb hab hba
  have ha' := ((htail.mem a).mp (hperm.mem_iff.mp ha)).1
  have hb' := ((htail.mem b).mp hb).1
  exact inj_on_of_nodup_map hdistinct ha' hb' (Nat.le_antisymm hab hba)

theorem listEventsAfter_tail (hlog : inner.events (owner, id) = some log)
    (hdistinct : (log.map ResponseEventRecord.sequenceNumber).Nodup)
    (htail : Tail log cursor events) (limit : ℕ) :
    listEventsAfter inner owner id cursor limit = events.take limit := by
  rw [listEventsAfter, hlog]
  simp only [htail.eq_mergeSort hdistinct]

theorem listEventsAfter_deleted (cursor : Option ℕ) (limit : ℕ) :
    listEventsAfter (deleteResponse inner owner id).2 owner id cursor limit = [] := by
  simp [listEventsAfter, deleteResponse]

/-- Behind the last event of a page stand the events that are left. -/
theorem Tail.next {page rest : List ResponseEventRecord} {last : ResponseEventRecord}
    (htail : Tail log cursor (page ++ [last] ++ rest)) :
    Tail log (some last.sequenceNumber) rest := by
  obtain ⟨hpage, hrest, hcross⟩ := pairwise_append.mp htail.sorted
  refine ⟨hrest, fun e => ⟨fun he => ?_, ?_⟩⟩
  · refine ⟨((htail.mem e).mp (mem_append_right _ he)).1, ?_⟩
    rintro c ⟨⟩
    exact hcross last (mem_append_right _ mem_cons_self) e he
  · rintro ⟨hlog, hlater⟩
    have hlt := hlater _ rfl
    have hlast := (htail.mem last).mp
      (mem_append_left _ (mem_append_right _ mem_cons_self))
    have hmem := (htail.mem e).mpr ⟨hlog, fun c hc => (hlast.2 c hc).trans hlt⟩
    rcases mem_append.mp hmem with hmem | hmem
    · exfalso
      rcases mem_append.mp hmem with hmem | hmem
      · have := (pairwise_append.mp hpage).2.2 e hmem last mem_cons_self
        omega
      · rw [mem_singleton.mp hmem] at hlt
        omega
    · exact hmem

theorem encodePage_concat (page : List ResponseEventRecord) (last : ResponseEventRecord)
    (hpage : ∀ e ∈ page, e.terminal = false) (body : ReplayStreamBody) (hdone : body.done = false) :
    encodePage (page ++ [last]) body =
      ((page ++ [last]).flatMap encodeReplayEvent,
        { body with cursor := some last.sequenceNumber, done := last.terminal }) := by
  induction page generalizing body with
  | nil =>
    cases hlast : last.terminal with
    | true => simp [encodePage, hlast]
    | false => simp [encodePage, hlast, hdone]
  | cons event page ih =>
    rw [forall_mem_cons] at hpage
    rw [cons_append, encodePage]
    simp only [hpage.1, Bool.false_eq_true, if_false]
    rw [ih hpage.2 { body with cursor := some event.sequenceNumber } hdone, flatMap_cons]

theorem nextChunk_done {body : ReplayStreamBody} (hdone : body.done = true)
    (page : Except StoreError (List ResponseEventRecord)) :
    nextChunk page body = (.ok none, body) := by
  unfold nextChunk
  rw [if_pos hdone]

theorem nextChunk_empty {body : ReplayStreamBody} (hdone : body.done = false) :
    nextChunk (.ok []) body =
      if body.cursor.any (body.terminalSequence ≤ ·) then (.ok none, { body with done := true })
      else (.error (truncated body.responseId), { body with done := true }) := by
  simp [nextChunk, hdone]

theorem nextChunk_page {page : List ResponseEventRecord} (hpage : page ≠ [])
    {body : ReplayStreamBody} (hdone : body.done = false) :
    nextChunk (.ok page) body =
      (.ok (some (encodePage page body).1), (encodePage page body).2) := by
  cases page with
  | nil => exact absurd rfl hpage
  | cons event rest => simp [nextChunk, hdone]

theorem pulls_done (states : List Inner) {body : ReplayStreamBody} (hdone : body.done = true) :
    pulls owner states body = List.replicate states.length (.ok none) := by
  induction states with
  | nil => rfl
  | cons inner later ih =>
    rw [pulls, nextChunk_done hdone, ih, length_cons, replicate_succ]

/-- The events left behind a cursor end with the terminal one, unless it was passed. -/
theorem ReplayableLog.tail_cases (hlog : ReplayableLog log terminal)
    (htail : Tail log cursor events) :
    (events = [] ∧ cursor.any (terminal.sequenceNumber ≤ ·) = true) ∨
      ∃ before, events = before ++ [terminal] ∧ (∀ e ∈ before, e.terminal = false) ∧
        cursor.any (terminal.sequenceNumber ≤ ·) = false := by
  by_cases hpassed : terminal ∈ events
  · right
    obtain ⟨before, after, rfl⟩ := append_of_mem hpassed
    obtain ⟨-, hlater, hcross⟩ := pairwise_append.mp htail.sorted
    have hdiffers : ∀ e ∈ before ++ terminal :: after,
        e.sequenceNumber ≠ terminal.sequenceNumber →
          e.terminal = false ∧ e.sequenceNumber < terminal.sequenceNumber := by
      intro e he hne
      exact hlog.others e ((htail.mem e).mp he).1 fun heq => hne (by rw [heq])
    have hafter : after = [] := by
      cases after with
      | nil => rfl
      | cons e after =>
        have hlt := (pairwise_cons.mp hlater).1 e mem_cons_self
        have := (hdiffers e (by simp) (by omega)).2
        omega
    subst hafter
    refine ⟨before, rfl, fun e he => ?_, ?_⟩
    · have hlt := hcross e he terminal mem_cons_self
      exact (hdiffers e (mem_append_left _ he) (by omega)).1
    · cases cursor with
      | none => rfl
      | some c =>
        have := ((htail.mem terminal).mp hpassed).2 c rfl
        simpa using this
  · left
    obtain ⟨c, rfl, hc⟩ : ∃ c, cursor = some c ∧ terminal.sequenceNumber ≤ c := by
      cases cursor with
      | none => exact absurd ((htail.mem terminal).mpr ⟨hlog.mem, by simp⟩) hpassed
      | some c =>
        refine ⟨c, rfl, ?_⟩
        by_contra hlt
        exact hpassed ((htail.mem terminal).mpr ⟨hlog.mem, by simp; omega⟩)
    refine ⟨?_, by simpa using hc⟩
    rw [eq_nil_iff_forall_not_mem]
    intro e he
    obtain ⟨hmem, hlater⟩ := (htail.mem e).mp he
    have hlt := hlater c rfl
    by_cases heq : e = terminal
    · subst heq
      omega
    · have := (hlog.others e hmem heq).2
      omega

/-- How a body pages: a page a call while the log is there, then the end; an error once the log is
gone with pages left. -/
structure Pages (inner gone : Inner) (owner : StateOwner) (body : ReplayStreamBody)
    (pages : List (List ResponseEventRecord)) : Prop where
  served : ∀ k m, pages.length ≤ k →
    pulls owner (List.replicate k inner ++ List.replicate m gone) body =
      (pages.map fun page => .ok (some (page.flatMap encodeReplayEvent))) ++
        List.replicate (k - pages.length + m) (.ok none)
  cut : ∀ k m, k < pages.length →
    pulls owner (List.replicate k inner ++ List.replicate (m + 1) gone) body =
      ((pages.take k).map fun page => .ok (some (page.flatMap encodeReplayEvent))) ++
        .error (truncated body.responseId) :: List.replicate m (.ok none)

variable {body : ReplayStreamBody} {gone : Inner}

theorem Pages.of_done (hdone : body.done = true) : Pages inner gone owner body [] where
  served k m _ := by
    rw [pulls_done _ hdone]
    simp
  cut k m h := absurd h (Nat.not_lt_zero k)

theorem Pages.of_passed (hdone : body.done = false)
    (hpassed : body.cursor.any (body.terminalSequence ≤ ·) = true)
    (hinner : readPage inner owner body = .ok []) (hgone : readPage gone owner body = .ok []) :
    Pages inner gone owner body [] where
  served k m _ := by
    have hfirst : ∀ s later, readPage s owner body = .ok [] → pulls owner (s :: later) body =
        List.replicate (later.length + 1) (.ok none) := by
      intro s later hs
      rw [pulls, hs, nextChunk_empty hdone, if_pos hpassed, pulls_done _ rfl, replicate_succ]
    cases k with
    | zero =>
      cases m with
      | zero => rfl
      | succ m =>
        rw [replicate_zero, nil_append, replicate_succ, hfirst _ _ hgone]
        simp
    | succ k =>
      rw [replicate_succ, cons_append, hfirst _ _ hinner]
      simp [Nat.add_right_comm]
  cut k m h := absurd h (Nat.not_lt_zero k)

theorem Pages.cons {page : List ResponseEventRecord} {next : ReplayStreamBody}
    {pages : List (List ResponseEventRecord)} (hdone : body.done = false)
    (hleft : body.cursor.any (body.terminalSequence ≤ ·) = false)
    (hread : nextChunk (readPage inner owner body) body =
      (.ok (some (page.flatMap encodeReplayEvent)), next))
    (hgone : readPage gone owner body = .ok []) (hrest : Pages inner gone owner next pages)
    (hid : next.responseId = body.responseId) :
    Pages inner gone owner body (page :: pages) where
  served k m hk := by
    obtain ⟨k, rfl⟩ : ∃ j, k = j + 1 := ⟨k - 1, by rw [length_cons] at hk; omega⟩
    rw [replicate_succ, cons_append, pulls, hread,
      hrest.served k m (by rw [length_cons] at hk; omega), length_cons, Nat.add_sub_add_right]
    rfl
  cut k m hk := by
    cases k with
    | zero =>
      rw [replicate_zero, nil_append, replicate_succ, pulls, hgone, nextChunk_empty hdone,
        if_neg (by rw [hleft]; exact Bool.false_ne_true), pulls_done _ rfl, length_replicate]
      rfl
    | succ k =>
      rw [replicate_succ, cons_append, pulls, hread,
        hrest.cut k m (by rw [length_cons] at hk; omega), hid]
      rfl

/-- A replay pages through what is left of the log. -/
theorem exists_pages (hlog : ReplayableLog log terminal)
    (hinner : inner.events (owner, id) = some log) (n : ℕ) :
    ∀ (events : List ResponseEventRecord) (body : ReplayStreamBody), events.length ≤ n →
      Tail log body.cursor events → body.responseId = id →
      body.terminalSequence = terminal.sequenceNumber → body.done = false →
      ∃ pages, pages.flatten = events ∧
        Pages inner (deleteResponse inner owner id).2 owner body pages := by
  induction n with
  | zero =>
    intro events body hn htail hid hterminal hdone
    have hnil : events = [] := length_eq_zero_iff.mp (by omega)
    subst hnil
    rcases hlog.tail_cases htail with ⟨-, hpassed⟩ | ⟨before, h, -⟩
    · refine ⟨[], rfl, Pages.of_passed hdone (by rw [hterminal]; exact hpassed) ?_ ?_⟩
      · rw [readPage, hid, listEventsAfter_tail hinner hlog.distinct htail, take_nil]
      · rw [readPage, hid, listEventsAfter_deleted]
    · simp at h
  | succ n ih =>
    intro events body hn htail hid hterminal hdone
    have hread : readPage inner owner body = .ok (events.take replayPageLimit) := by
      rw [readPage, hid, listEventsAfter_tail hinner hlog.distinct htail]
    have hgone : readPage (deleteResponse inner owner id).2 owner body = .ok [] := by
      rw [readPage, hid, listEventsAfter_deleted]
    rcases hlog.tail_cases htail with ⟨rfl, hpassed⟩ | ⟨before, rfl, hbefore, hleft⟩
    · refine ⟨[], rfl, Pages.of_passed hdone (by rw [hterminal]; exact hpassed) ?_ hgone⟩
      rw [hread, take_nil]
    · rw [← hterminal] at hleft
      by_cases hshort : before.length < replayPageLimit
      · -- the last page: the terminal event ends the body
        have hwhole : (before ++ [terminal]).take replayPageLimit = before ++ [terminal] :=
          take_of_length_le (by simp; omega)
        rw [hwhole] at hread
        have hends : ({ body with cursor := some terminal.sequenceNumber
                                  done := terminal.terminal } : ReplayStreamBody).done = true :=
          hlog.isTerminal
        refine ⟨[before ++ [terminal]], by simp, Pages.cons hdone hleft ?_ hgone
          (Pages.of_done hends) rfl⟩
        rw [hread, nextChunk_page (by simp) hdone,
          encodePage_concat before terminal hbefore _ hdone]
      · -- a full page of events before the terminal one
        have htake : (before ++ [terminal]).take replayPageLimit = before.take replayPageLimit :=
          take_append_of_le_length (by omega)
        have hne : before.take replayPageLimit ≠ [] := by
          intro hnil
          have := congrArg List.length hnil
          rw [length_take, length_nil, replayPageLimit] at this
          rw [replayPageLimit] at hshort
          omega
        obtain ⟨first, last, hpage⟩ := eq_nil_or_concat _ |>.resolve_left hne
        rw [concat_eq_append] at hpage
        have hsplit : before ++ [terminal] =
            first ++ [last] ++ (before.drop replayPageLimit ++ [terminal]) := by
          rw [← hpage, ← append_assoc, take_append_drop]
        have hplain : ∀ e ∈ first ++ [last], e.terminal = false := by
          intro e he
          rw [← hpage] at he
          exact hbefore e (mem_of_mem_take he)
        rw [hsplit] at htail
        obtain ⟨pages, hpages, hrest⟩ := ih (before.drop replayPageLimit ++ [terminal])
          { body with cursor := some last.sequenceNumber, done := last.terminal }
          (by
            rw [replayPageLimit] at *
            simp at hn ⊢
            omega)
          htail.next hid hterminal (hplain last (by simp))
        refine ⟨(first ++ [last]) :: pages, by rw [flatten_cons, hpages, hsplit],
          Pages.cons hdone hleft ?_ hgone hrest rfl⟩
        rw [hread, htake, hpage, nextChunk_page (by simp) hdone,
          encodePage_concat first last (fun e he => hplain e (mem_append_left _ he)) _ hdone]

theorem exists_tail (hdistinct : (log.map ResponseEventRecord.sequenceNumber).Nodup)
    (cursor : Option ℕ) : ∃ events, Tail log cursor events := by
  have hperm := mergeSort_perm (log.filter fun e => cursor.all fun c =>
    decide (c < e.sequenceNumber)) fun a b => decide (a.sequenceNumber ≤ b.sequenceNumber)
  have hsorted := @List.pairwise_mergeSort _
    (fun a b : ResponseEventRecord => decide (a.sequenceNumber ≤ b.sequenceNumber))
    (by simp; omega) (by simp; omega)
    (log.filter fun e => cursor.all fun c => decide (c < e.sequenceNumber))
  have hnodup := (hperm.map ResponseEventRecord.sequenceNumber).nodup_iff.mpr
    (hdistinct.sublist (filter_sublist.map _))
  refine ⟨_, ?_, fun e => hperm.mem_iff.trans ?_⟩
  · refine (hsorted.and (pairwise_map.mp hnodup)).imp ?_
    rintro a b ⟨hle, hne⟩
    have hle := of_decide_eq_true hle
    omega
  · rw [mem_filter]
    cases cursor with
    | none => simp
    | some c => simp

theorem ReplayableLog.ensure (hlog : ReplayableLog log terminal)
    (hinner : inner.events (owner, id) = some log) :
    ensureReplayableLog inner owner id = .ok terminal.sequenceNumber := by
  have hmax : (log.map ResponseEventRecord.sequenceNumber).max? =
      some terminal.sequenceNumber := by
    rw [max?_eq_some_iff]
    refine ⟨mem_map_of_mem hlog.mem, fun n hn => ?_⟩
    obtain ⟨e, he, rfl⟩ := mem_map.mp hn
    by_cases heq : e = terminal
    · rw [heq]
    · exact (hlog.others e he heq).2.le
  have hany : log.any ResponseEventRecord.terminal = true :=
    any_eq_true.mpr ⟨terminal, hlog.mem, hlog.isTerminal⟩
  rw [ensureReplayableLog, eventLogStatus, hinner]
  simp only [hmax, hany, if_true]

end Paging

/-! ## The replay as its reader sees it -/

/-- Without a write the reader finds every event behind the cursor once, in order, up to the
terminal one, and then the end of the body for ever. A deletion between two pages leaves a part of
these events and an error. -/
theorem replay_delivers_log {inner : Inner} {owner : StateOwner} {id : String}
    {log : List ResponseEventRecord} {terminal : ResponseEventRecord}
    (hinner : inner.events (owner, id) = some log) (hlog : ReplayableLog log terminal)
    (startingAfter : Option ℕ) (limit : ℕ)
    (hfits : ∀ e ∈ log, (encodeReplayEvent e).length ≤ limit) :
    ensureReplayableLog inner owner id = .ok terminal.sequenceNumber ∧
      ∃ (events : List ResponseEventRecord) (chunks : List Bytes), Tail log startingAfter events ∧
        (∀ k m, chunks.length ≤ k →
          pulls owner (List.replicate k inner ++
              List.replicate m (deleteResponse inner owner id).2)
              (.new id startingAfter terminal.sequenceNumber) =
            (chunks.map fun chunk => .ok (some chunk)) ++
              List.replicate (k - chunks.length + m) (.ok none)) ∧
        (∃ p, parseChunk (.new limit) chunks.flatten = (.ok (events.map frameFor), p) ∧
          p.hasIncompleteFrame = false) ∧
        ∀ k, k < chunks.length →
          (∀ m, pulls owner (List.replicate k inner ++
              List.replicate (m + 1) (deleteResponse inner owner id).2)
              (.new id startingAfter terminal.sequenceNumber) =
            ((chunks.take k).map fun chunk => .ok (some chunk)) ++
              .error (truncated id) :: List.replicate m (.ok none)) ∧
          ∃ delivered p, delivered <+: events ∧
            parseChunk (.new limit) (chunks.take k).flatten = (.ok (delivered.map frameFor), p) ∧
            p.hasIncompleteFrame = false := by
  obtain ⟨events, htail⟩ := exists_tail hlog.distinct startingAfter
  obtain ⟨pages, hpages, hpulls⟩ := exists_pages hlog hinner events.length events
    (.new id startingAfter terminal.sequenceNumber) (Nat.le_refl _) htail rfl rfl rfl
  have hlogged : ∀ e ∈ events, e ∈ log := fun e he => ((htail.mem e).mp he).1
  have hread : ∀ delivered, delivered <+: events →
      ∃ p, parseChunk (.new limit) (delivered.flatMap encodeReplayEvent) =
        (.ok (delivered.map frameFor), p) ∧ p.hasIncompleteFrame = false := by
    intro delivered hinitial
    refine parse_encodeAll delivered (fun e he => ?_) fun e he => ?_
    · exact hlog.encodable e (hlogged e (hinitial.subset he))
    · exact hfits e (hlogged e (hinitial.subset he))
  have hflat : ∀ pages : List (List ResponseEventRecord),
      (pages.map fun page => page.flatMap encodeReplayEvent).flatten =
        pages.flatten.flatMap encodeReplayEvent := by
    intro pages
    induction pages with
    | nil => rfl
    | cons page pages ih =>
      rw [map_cons, flatten_cons, flatten_cons, flatMap_append, ih]
  refine ⟨hlog.ensure hinner, events, pages.map fun page => page.flatMap encodeReplayEvent, htail,
    fun k m hk => ?_, ?_, fun k hk => ⟨fun m => ?_,
      pages.flatten.take (pages.take k).flatten.length, ?_⟩⟩
  · rw [length_map] at hk
    rw [hpulls.served k m hk, map_map, length_map]
    rfl
  · rw [hflat, hpages]
    exact hread events prefix_rfl
  · rw [length_map] at hk
    rw [hpulls.cut k m hk, ← map_take, map_map]
    rfl
  · have hsplit : pages.flatten = (pages.take k).flatten ++ (pages.drop k).flatten := by
      rw [← flatten_append, take_append_drop]
    have htake : pages.flatten.take (pages.take k).flatten.length = (pages.take k).flatten := by
      rw [hsplit, take_left]
    rw [htake, ← map_take, hflat]
    have hinitial : (pages.take k).flatten <+: events := by
      rw [← hpages, hsplit]
      exact prefix_append _ _
    obtain ⟨p, hp⟩ := hread _ hinitial
    exact ⟨p, hinitial, hp⟩

def replayOwner : StateOwner := ⟨"tenant", "issuer", "subject"⟩

def completedEvent : ResponseEventRecord :=
  ⟨"resp_1", replayOwner, 4, "response.completed", [123, 125], true, 0⟩

def createdEvent : ResponseEventRecord :=
  ⟨"resp_1", replayOwner, 2, "response.created", [123, 10, 125], false, 0⟩

def completedStore : Inner := { events := fun _ => some [completedEvent, createdEvent] }

theorem replayableLog_completed : ReplayableLog [completedEvent, createdEvent] completedEvent where
  distinct := by decide
  mem := by decide
  isTerminal := rfl
  others := by decide
  encodable := by
    have htypes : [completedEvent, createdEvent].all (fun e =>
        (ascii e.eventType).all fun b => !(b == lf || b == cr)) = true := by decide
    have hpayloads : [completedEvent, createdEvent].all (fun e =>
        e.payload.all fun b => !(b == cr)) = true := by decide
    intro e he
    refine ⟨fun b hb => ?_, fun hb => ?_⟩
    · have := all_eq_true.mp (all_eq_true.mp htypes e he) b hb
      simpa using this
    · have := all_eq_true.mp (all_eq_true.mp hpayloads e he) _ hb
      simp at this

/-- A log stored out of order, with a payload of two lines, read after the first event. -/
theorem replay_delivers_completed :
    ReplayableLog [completedEvent, createdEvent] completedEvent ∧
      ensureReplayableLog completedStore replayOwner "resp_1" = .ok 4 ∧
      ∃ events, Tail [completedEvent, createdEvent] (some 2) events := by
  have hdelivers := @replay_delivers_log completedStore replayOwner "resp_1" _ _ rfl
    replayableLog_completed (some 2) 64 (by decide)
  obtain ⟨hensure, events, -, htail, -⟩ := hdelivers
  exact ⟨replayableLog_completed, hensure, events, htail⟩

end ReplayStreams
