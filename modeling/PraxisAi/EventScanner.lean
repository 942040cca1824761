import PraxisAi.SseFrames
import Mathlib.Data.List.GetD
import Mathlib.Data.List.Induction
import Mathlib.Data.Nat.Basic

/-! # Scanning an event stream in chunks

The scanner reads a stream chunk by chunk, collects the data lines of each event and drops an event
that needs more memory than is allowed. Below it stand the events of a whole stream: its bytes as
symbols, in which every line end is one symbol, and the lines between blank lines. -/
namespace EventScanner

open List Option
open SseFrames (Bytes lf cr colon space)

section Scanner

inductive SkipPhase where
  | notSkipping
  | lineEmptySoFar
  | lineHasContent
  deriving DecidableEq

inductive ScanTail where
  | payload
  | dropped
  deriving DecidableEq

structure SseScanState where
  lineBuf : Bytes := []
  dataBuf : Bytes := []
  hasData : Bool := false
  prevCr : Bool := false
  scratchBytes : ℕ := 0
  skip : SkipPhase := .notSkipping
  tail : ScanTail := .payload
  deriving DecidableEq

structure Scan where
  state : SseScanState := {}
  payloads : List Bytes := []
  droppedEvents : ℕ := 0
  deriving DecidableEq

def dataValue (line : Bytes) : Option Bytes :=
  if line.head? = some colon then none
  else match line.findIdx? (· = colon) with
    | none => none
    | some position =>
      if line.take position ≠ [100, 97, 116, 97] then none
      else if (line.drop (position + 1)).head? = some space then some (line.drop (position + 2))
      else some (line.drop (position + 1))

def processLine (line data : Bytes) (hasData : Bool) (payloads : List Bytes) :
    Bytes × Bool × List Bytes :=
  if line = [] then
    if hasData then ([], false, payloads ++ [data]) else (data, hasData, payloads)
  else match dataValue line with
    | none => (data, hasData, payloads)
    | some value => ((if hasData then data ++ [lf] else data) ++ value, true, payloads)

def isNewline (b : UInt8) : Bool := b = lf || b = cr

def consume (scan : Scan) (b : UInt8) : Scan :=
  match scan.state.skip with
  | .notSkipping =>
    if isNewline b then
      let line := processLine scan.state.lineBuf scan.state.dataBuf scan.state.hasData scan.payloads
      { scan with
        payloads := line.2.2
        state := { scan.state with
          lineBuf := []
          dataBuf := line.1
          hasData := line.2.1
          tail := if scan.payloads.length < line.2.2.length then .payload else scan.state.tail } }
    else { scan with state := { scan.state with lineBuf := scan.state.lineBuf ++ [b] } }
  | .lineEmptySoFar =>
    { scan with state := { scan.state with
        skip := if isNewline b then .notSkipping else .lineHasContent } }
  | .lineHasContent =>
    if isNewline b then { scan with state := { scan.state with skip := .lineEmptySoFar } } else scan

def scratch (scan : Scan) : ℕ := scan.state.lineBuf.length + scan.state.dataBuf.length

def limit (maxScratchBytes : ℕ) (b : UInt8) (scan : Scan) : Scan :=
  if scan.state.skip ≠ .notSkipping then scan
  else if maxScratchBytes < scratch scan then
    { scan with
      droppedEvents := scan.droppedEvents + 1
      state := { scan.state with
        lineBuf := []
        dataBuf := []
        hasData := false
        scratchBytes := 0
        skip := if isNewline b then .lineEmptySoFar else .lineHasContent
        tail := .dropped } }
  else { scan with state := { scan.state with scratchBytes := scratch scan } }

variable (maxScratchBytes : ℕ)

def scanByte (scan : Scan) (b : UInt8) : Scan := limit maxScratchBytes b (consume scan b)

def setPrevCr (scan : Scan) (prevCr : Bool) : Scan :=
  { scan with state := { scan.state with prevCr } }

/-- The loop over a chunk: the second byte of a CRLF pair is passed over. -/
def scanLoop : Scan → Bytes → Scan
  | scan, [] => scan
  | scan, [b] => if b = cr then setPrevCr (scanByte maxScratchBytes scan b) true
      else scanByte maxScratchBytes scan b
  | scan, b :: c :: rest =>
    if b = cr ∧ c = lf then scanLoop (scanByte maxScratchBytes scan b) rest
    else scanLoop (scanByte maxScratchBytes scan b) (c :: rest)

def withoutHalf (prevCr : Bool) (chunk : Bytes) : Bytes :=
  if prevCr = true ∧ chunk.head? = some lf then chunk.tail else chunk

def scanSseChunk (scan : Scan) (chunk : Bytes) : Scan :=
  scanLoop maxScratchBytes (setPrevCr scan false) (withoutHalf scan.state.prevCr chunk)

def flushSseState (scan : Scan) : Scan :=
  let line := if scan.state.lineBuf = [] then
      (scan.state.dataBuf, scan.state.hasData, scan.payloads)
    else processLine scan.state.lineBuf scan.state.dataBuf scan.state.hasData scan.payloads
  let payloads := if line.2.1 then line.2.2 ++ [line.1] else line.2.2
  { scan with
    payloads
    state := { scan.state with
      lineBuf := []
      dataBuf := if line.2.1 then [] else line.1
      hasData := false
      scratchBytes := 0
      tail := if scan.payloads.length < payloads.length then .payload else scan.state.tail } }

def scanChunks (chunks : List Bytes) : Scan := chunks.foldl (scanSseChunk maxScratchBytes) {}

/-- What `line_buf` and `data_buf` hold. -/
abbrev Buffers := Bytes × Bytes

def Buffers.size (buffers : Buffers) : ℕ := buffers.1.length + buffers.2.length

def buffers (scan : Scan) : Buffers := (scan.state.lineBuf, scan.state.dataBuf)

/-- The buffers in the course of `process_line`: the line is cleared only after its return. -/
def lineMoments (line data : Bytes) (hasData : Bool) : List Buffers :=
  if line = [] then if hasData then [([], [])] else []
  else match dataValue line with
    | none => []
    | some value =>
      let joined := if hasData then data ++ [lf] else data
      [(line, joined), (line, joined ++ value)]

/-- The buffers in the course of one turn of the loop. -/
def byteMoments (scan : Scan) (b : UInt8) : List Buffers :=
  (if scan.state.skip = .notSkipping ∧ isNewline b = true then
    lineMoments scan.state.lineBuf scan.state.dataBuf scan.state.hasData else []) ++
  buffers (consume scan b) ::
  -- a drop clears the line first
  (if maxScratchBytes < scratch (consume scan b) then [([], (consume scan b).state.dataBuf)]
    else []) ++
  [buffers (scanByte maxScratchBytes scan b)]

def flushMoments (scan : Scan) : List Buffers :=
  (if scan.state.lineBuf = [] then []
    else lineMoments scan.state.lineBuf scan.state.dataBuf scan.state.hasData ++
      [([], (processLine scan.state.lineBuf scan.state.dataBuf scan.state.hasData
        scan.payloads).1)]) ++
  [buffers (flushSseState scan)]

/-- The payloads, the number of dropped events and the tail of a whole stream. -/
def scanAll (chunks : List Bytes) : List Bytes × ℕ × ScanTail :=
  let scan := flushSseState (scanChunks maxScratchBytes chunks)
  (scan.payloads, scan.droppedEvents, scan.state.tail)

end Scanner

section Events

abbrev Symbol := Option UInt8

def symbol (b : UInt8) : Symbol := if isNewline b then none else some b

/-- A stream in which CR, LF and CRLF each are one line end. -/
def symbols : Bytes → List Symbol
  | [] => []
  | [b] => [symbol b]
  | b :: c :: rest =>
    if b = cr ∧ c = lf then none :: symbols rest else symbol b :: symbols (c :: rest)

/-- The events read so far, the lines of the one being read, and its unfinished line. -/
structure Reading where
  events : List (List Bytes) := []
  current : List Bytes := []
  line : Bytes := []

def Reading.next (reading : Reading) : Symbol → Reading
  | some b => { reading with line := reading.line ++ [b] }
  | none =>
    if reading.line = [] then ⟨reading.events ++ [reading.current], [], []⟩
    else ⟨reading.events, reading.current ++ [reading.line], []⟩

def reading (stream : List Symbol) : Reading := stream.foldl Reading.next {}

def Reading.rest (reading : Reading) : List Bytes :=
  if reading.line = [] then reading.current else reading.current ++ [reading.line]

def eventsOf (stream : List Symbol) : List (List Bytes) :=
  (reading stream).events ++ [(reading stream).rest]

def dataOf (lines : List Bytes) : Bytes := [lf].intercalate (lines.filterMap dataValue)

def Exceeds (cap : ℕ) (lines : List Bytes) : Prop :=
  ∃ i < lines.length, cap < (dataOf (lines.take i)).length + (lines.getD i []).length

instance (cap : ℕ) (lines : List Bytes) : Decidable (Exceeds cap lines) :=
  inferInstanceAs (Decidable (∃ i < lines.length, _))

/-- The line being read fits in a second time, as the data that it would add if it ended here. -/
def Roomy (cap : ℕ) (reading : Reading) : Prop :=
  reading.line ≠ [] → ¬Exceeds cap (reading.current ++ [reading.line]) →
    reading.line.length + (dataOf (reading.current ++ [reading.line])).length ≤ cap + 1

instance (cap : ℕ) (reading : Reading) : Decidable (Roomy cap reading) :=
  inferInstanceAs (Decidable (_ → _))

inductive Outcome where
  | payload (data : Bytes)
  | dropped
  deriving DecidableEq

def outcome (cap : ℕ) (lines : List Bytes) : Option Outcome :=
  if Exceeds cap lines then some .dropped
  else if lines.filterMap dataValue = [] then none
  else some (.payload (dataOf lines))

def Outcome.data : Outcome → Option Bytes
  | .payload data => some data
  | .dropped => none

def Outcome.tail : Outcome → ScanTail
  | .payload _ => .payload
  | .dropped => .dropped

def summary (outcomes : List Outcome) : List Bytes × ℕ × ScanTail :=
  (outcomes.filterMap Outcome.data, outcomes.count .dropped,
    (outcomes.getLast?.map Outcome.tail).getD .payload)

def wholeStream (cap : ℕ) (stream : List Symbol) : List Bytes × ℕ × ScanTail :=
  summary ((eventsOf stream).filterMap (outcome cap))

end Events

section Chunks

variable (cap : ℕ)

def endsInCr (prevCr : Bool) (bytes : Bytes) : Bool :=
  match bytes.getLast? with
  | none => prevCr
  | some b => b = cr

/-- The symbols that the scanner sees: a pending CR is forgotten at an empty chunk. -/
def heard : Bool → List Bytes → List Symbol
  | _, [] => []
  | prevCr, chunk :: rest =>
    symbols (withoutHalf prevCr chunk) ++ heard (endsInCr false (withoutHalf prevCr chunk)) rest

/-- A neighbour of a line end with which it encloses a blank line, or none at all. -/
def Blank (neighbour : Option UInt8) : Prop := ∀ b, neighbour = some b → isNewline b = true

/-- Where an empty chunk stands between the halves of a CRLF pair, the line before the pair is
blank, or the one behind it is blank or missing. -/
def Harmless (chunks : List Bytes) : Prop :=
  ∀ before after p q, chunks = before ++ [] :: after → before.flatten = p ++ [cr] →
    after.flatten = lf :: q → Blank p.getLast? ∨ Blank q.head?

def scanSymbol (scan : Scan) (s : Symbol) : Scan := scanByte cap scan (s.getD lf)

theorem consume_newline (scan : Scan) {b c : UInt8} (hb : isNewline b = true)
    (hc : isNewline c = true) : consume scan b = consume scan c := by
  cases hskip : scan.state.skip <;> simp only [consume, hskip, hb, hc, if_true]

theorem limit_newline (scan : Scan) {b c : UInt8} (hb : isNewline b = true)
    (hc : isNewline c = true) : limit cap b scan = limit cap c scan := by
  rw [limit, limit, hb, hc]

theorem scanByte_symbol (scan : Scan) (b : UInt8) :
    scanSymbol cap scan (symbol b) = scanByte cap scan b := by
  rw [scanSymbol, symbol]
  split
  · rename_i hnewline
    rw [getD_none, scanByte, scanByte, consume_newline scan rfl hnewline,
      limit_newline cap _ rfl hnewline]
  · rfl

theorem consume_setPrevCr (scan : Scan) (prevCr : Bool) (b : UInt8) :
    consume (setPrevCr scan prevCr) b = setPrevCr (consume scan b) prevCr := by
  obtain ⟨⟨line, data, hasData, before, bytes, skip, tail⟩, payloads, dropped⟩ := scan
  simp only [consume, setPrevCr]
  cases skip <;> by_cases hnewline : isNewline b = true <;> simp only [hnewline] <;> rfl

theorem limit_setPrevCr (scan : Scan) (prevCr : Bool) (b : UInt8) :
    limit cap b (setPrevCr scan prevCr) =
      setPrevCr (limit cap b scan) prevCr := by
  have hscratch : scratch (setPrevCr scan prevCr) = scratch scan := rfl
  have hphase : (setPrevCr scan prevCr).state.skip = scan.state.skip := rfl
  rw [limit, limit, hscratch, hphase]
  by_cases hskip : scan.state.skip ≠ .notSkipping
  · rw [if_pos hskip, if_pos hskip]
  · rw [if_neg hskip, if_neg hskip]
    by_cases hlarge : cap < scratch scan
    · rw [if_pos hlarge, if_pos hlarge]
      rfl
    · rw [if_neg hlarge, if_neg hlarge]
      rfl

theorem scanByte_setPrevCr (scan : Scan) (prevCr : Bool) (b : UInt8) :
    scanByte cap (setPrevCr scan prevCr) b =
      setPrevCr (scanByte cap scan b) prevCr := by
  rw [scanByte, scanByte, consume_setPrevCr, limit_setPrevCr]

theorem endsInCr_cons (prevCr : Bool) (b c : UInt8) (rest : Bytes) :
    endsInCr prevCr (b :: c :: rest) = endsInCr prevCr (c :: rest) := by
  rw [endsInCr, endsInCr, getLast?_cons_cons]

/-- The loop reads the symbols and notes whether the chunk ends in a CR. -/
theorem scanLoop_eq (scan : Scan) (bytes : Bytes) :
    scanLoop cap (setPrevCr scan false) bytes =
      setPrevCr ((symbols bytes).foldl (scanSymbol cap) scan)
        (endsInCr false bytes) := by
  induction bytes using symbols.induct generalizing scan with
  | case1 => rfl
  | case2 b =>
    rw [scanLoop, symbols, foldl_cons, foldl_nil, scanByte_symbol, scanByte_setPrevCr, endsInCr]
    by_cases hcr : b = cr
    · simp [hcr, setPrevCr]
    · simp [hcr]
  | case3 b c rest hcrlf ih =>
    obtain ⟨rfl, rfl⟩ := hcrlf
    rw [scanLoop, symbols, if_pos ⟨rfl, rfl⟩, if_pos ⟨rfl, rfl⟩, scanByte_setPrevCr, ih, foldl_cons]
    have hends : endsInCr false (cr :: lf :: rest) = endsInCr false rest := by
      rw [endsInCr_cons]
      cases rest with
      | nil => rfl
      | cons d rest => rw [endsInCr_cons]
    have hnone : symbol cr = none := rfl
    rw [hends, ← hnone, scanByte_symbol]
  | case4 b c rest hnot ih =>
    rw [scanLoop, symbols, if_neg hnot, if_neg hnot, scanByte_setPrevCr, ih, foldl_cons,
      scanByte_symbol, endsInCr_cons]

theorem scanSseChunk_eq (scan : Scan) (chunk : Bytes) :
    scanSseChunk cap scan chunk =
      setPrevCr ((symbols (withoutHalf scan.state.prevCr chunk)).foldl
        (scanSymbol cap) scan)
        (endsInCr false (withoutHalf scan.state.prevCr chunk)) := by
  rw [scanSseChunk, scanLoop_eq]

theorem foldl_setPrevCr (scan : Scan) (prevCr : Bool) (stream : List Symbol) :
    stream.foldl (scanSymbol cap) (setPrevCr scan prevCr) =
      setPrevCr (stream.foldl (scanSymbol cap) scan) prevCr := by
  induction stream generalizing scan with
  | nil => rfl
  | cons s stream ih =>
    rw [foldl_cons, foldl_cons, scanSymbol, scanByte_setPrevCr, ih]
    rfl

/-- Whatever the cutting, the scanner reads the symbols that it hears. -/
theorem scanChunks_eq (scan : Scan) (chunks : List Bytes) : ∃ prevCr,
    chunks.foldl (scanSseChunk cap) scan =
      setPrevCr ((heard scan.state.prevCr chunks).foldl (scanSymbol cap) scan)
        prevCr := by
  induction chunks generalizing scan with
  | nil => exact ⟨scan.state.prevCr, rfl⟩
  | cons chunk chunks ih =>
    rw [foldl_cons, scanSseChunk_eq, heard, foldl_append]
    obtain ⟨prevCr, heq⟩ := ih (setPrevCr ((symbols (withoutHalf scan.state.prevCr chunk)).foldl
      (scanSymbol cap) scan) (endsInCr false (withoutHalf scan.state.prevCr chunk)))
    refine ⟨prevCr, ?_⟩
    rw [heq, foldl_setPrevCr]
    rfl

theorem withoutHalf_append (prevCr : Bool) {chunk : Bytes} (hchunk : chunk ≠ []) (rest : Bytes) :
    withoutHalf prevCr (chunk ++ rest) = withoutHalf prevCr chunk ++ rest := by
  cases chunk with
  | nil => exact absurd rfl hchunk
  | cons b chunk =>
    have hhead : (b :: chunk ++ rest).head? = (b :: chunk).head? := rfl
    rw [withoutHalf, withoutHalf, hhead]
    split
    · rfl
    · rfl

/-- A line end is not cut in two when the pending CR is kept. -/
theorem symbols_append (bytes rest : Bytes) :
    symbols (bytes ++ rest) =
      symbols bytes ++ symbols (withoutHalf (endsInCr false bytes) rest) := by
  induction bytes using symbols.induct with
  | case1 =>
    rw [nil_append, symbols, nil_append, withoutHalf, if_neg]
    exact fun hhalf => Bool.false_ne_true hhalf.1
  | case2 b =>
    cases rest with
    | nil =>
      rw [append_nil, withoutHalf, if_neg (fun hhalf => by cases hhalf.2), symbols, append_nil]
    | cons c rest =>
      have hpair : symbols (b :: c :: rest) = if b = cr ∧ c = lf then none :: symbols rest
          else symbol b :: symbols (c :: rest) := by rw [symbols]
      rw [singleton_append, hpair]
      by_cases hcrlf : b = cr ∧ c = lf
      · obtain ⟨rfl, rfl⟩ := hcrlf
        rw [if_pos ⟨rfl, rfl⟩]
        rfl
      · rw [if_neg hcrlf, withoutHalf, if_neg]
        · rfl
        · rintro ⟨hcr, hlf⟩
          apply hcrlf
          rw [endsInCr] at hcr
          exact ⟨of_decide_eq_true hcr, Option.some.inj hlf⟩
  | case3 b c bytes hcrlf ih =>
    rw [cons_append, cons_append, symbols, if_pos hcrlf, symbols, if_pos hcrlf, ih, cons_append]
    have hends : endsInCr false (b :: c :: bytes) = endsInCr false bytes := by
      rw [endsInCr_cons, hcrlf.2]
      cases bytes with
      | nil => rfl
      | cons d bytes => rw [endsInCr_cons]
    rw [hends]
  | case4 b c bytes hnot ih =>
    rw [cons_append, cons_append, symbols, if_neg hnot, symbols, if_neg hnot,
      ← cons_append, ih, cons_append, endsInCr_cons]

theorem endsInCr_withoutHalf (prevCr : Bool) {chunk : Bytes} (hchunk : chunk ≠ []) :
    endsInCr false (withoutHalf prevCr chunk) = endsInCr false chunk := by
  rw [withoutHalf]
  split
  · rename_i hhalf
    cases chunk with
    | nil => rfl
    | cons b chunk =>
      obtain rfl := Option.some.inj hhalf.2
      cases chunk with
      | nil => rfl
      | cons c chunk => rw [endsInCr_cons, tail_cons]
  · rfl

end Chunks

section Partings

/-- The events that are not empty, from a reading on. -/
def solid (reading : Reading) (stream : List Symbol) : List (List Bytes) :=
  ((stream.foldl Reading.next reading).events ++
    [(stream.foldl Reading.next reading).rest]).filter (!·.isEmpty)

theorem solid_append (reading : Reading) (stream rest : List Symbol) :
    solid reading (stream ++ rest) = solid (stream.foldl Reading.next reading) rest := by
  rw [solid, solid, foldl_append]

/-- The events read before stand in front. -/
theorem solid_events (reading : Reading) (stream : List Symbol) :
    solid reading stream = reading.events.filter (!·.isEmpty) ++
      solid ⟨[], reading.current, reading.line⟩ stream := by
  induction stream generalizing reading with
  | nil =>
    rw [solid, solid, foldl_nil, foldl_nil, filter_append]
    rfl
  | cons s stream ih =>
    have hcons : ∀ other, solid other (s :: stream) = solid (other.next s) stream := fun _ => rfl
    rw [hcons, hcons, ih (reading.next s), ih (Reading.next ⟨[], _, _⟩ s)]
    cases s with
    | some b => rw [Reading.next, Reading.next, filter_nil, nil_append]
    | none =>
      rw [Reading.next, Reading.next]
      split <;> simp

theorem solid_blank (events : List (List Bytes)) (current : List Bytes) (stream : List Symbol) :
    solid ⟨events, current, []⟩ (none :: stream) =
      solid ⟨events ++ [current], [], []⟩ stream := rfl

/-- An empty event does not count. -/
theorem solid_empty (events : List (List Bytes)) (stream : List Symbol) :
    solid ⟨events ++ [[]], [], []⟩ stream = solid ⟨events, [], []⟩ stream := by
  have hnone : [([] : List Bytes)].filter (!·.isEmpty) = [] := rfl
  rw [solid_events ⟨events ++ [[]], [], []⟩, solid_events ⟨events, [], []⟩, filter_append,
    hnone, append_nil]

/-- How many events follow does not depend on the lines of one that has begun. -/
theorem length_solid_begun {current other : List Bytes} {line : Bytes} (stream : List Symbol)
    (hcurrent : current ≠ [] ∨ line ≠ []) (hother : other ≠ [] ∨ line ≠ []) :
    (solid ⟨[], current, line⟩ stream).length = (solid ⟨[], other, line⟩ stream).length := by
  induction stream generalizing current other line with
  | nil =>
    have hone : ∀ lines : List Bytes, lines ≠ [] ∨ line ≠ [] →
        (solid ⟨[], lines, line⟩ []).length = 1 := by
      intro lines hlines
      have hrest : Reading.rest ⟨[], lines, line⟩ ≠ [] := by
        rw [Reading.rest]
        split
        · rename_i hline
          exact hlines.resolve_right fun hne => hne hline
        · exact append_ne_nil_of_right_ne_nil _ (cons_ne_nil _ _)
      rw [solid, foldl_nil, nil_append, filter_cons_of_pos (by simpa using hrest)]
      rfl
    rw [hone _ hcurrent, hone _ hother]
  | cons s stream ih =>
    cases s with
    | some b =>
      have hline : line ++ [b] ≠ [] := append_ne_nil_of_right_ne_nil _ (cons_ne_nil _ _)
      exact ih (.inr hline) (.inr hline)
    | none =>
      by_cases hline : line = []
      · -- the blank line ends both events
        subst hline
        have hends : ∀ lines : List Bytes, lines ≠ [] →
            (solid ⟨[], lines, []⟩ (none :: stream)).length =
              1 + (solid ⟨[], [], []⟩ stream).length := by
          intro lines hlines
          rw [solid_blank, solid_events, length_append, nil_append,
            filter_cons_of_pos (by simpa using hlines)]
          rfl
        rw [hends _ (hcurrent.resolve_right fun hne => hne rfl),
          hends _ (hother.resolve_right fun hne => hne rfl)]
      · have hnext : ∀ lines : List Bytes, Reading.next ⟨[], lines, line⟩ none =
            ⟨[], lines ++ [line], []⟩ := fun lines => by rw [Reading.next, if_neg hline]
        have hne : ∀ lines : List Bytes, lines ++ [line] ≠ [] := fun lines =>
          append_ne_nil_of_right_ne_nil _ (cons_ne_nil _ _)
        have hsolid : (solid ⟨[], current ++ [line], []⟩ stream).length =
            (solid ⟨[], other ++ [line], []⟩ stream).length :=
          ih (.inl (hne current)) (.inl (hne other))
        rw [← hnext, ← hnext] at hsolid
        exact hsolid

/-- A second line end changes nothing next to a blank line. -/
theorem solid_twice {reading : Reading} {stream : List Symbol} (hline : reading.line = [])
    (h : reading.current = [] ∨ ∀ b, stream.head? ≠ some (some b)) :
    solid reading (none :: stream) = solid reading stream := by
  obtain ⟨events, current, line⟩ := reading
  dsimp only at hline h
  subst hline
  rw [solid_blank]
  rcases h with rfl | hnext
  · exact solid_empty events stream
  · match stream with
    | [] =>
      rw [solid_events, filter_append, solid, solid]
      simp [Reading.rest]
    | none :: stream => rw [solid_blank, solid_blank, solid_empty]
    | some b :: stream => exact absurd rfl (hnext b)

/-- Anywhere else it makes two events of one. -/
theorem length_solid_twice {reading : Reading} {stream : List Symbol} {b : UInt8}
    (hline : reading.line = []) (hcurrent : reading.current ≠ []) :
    (solid reading (none :: some b :: stream)).length =
      (solid reading (some b :: stream)).length + 1 := by
  obtain ⟨events, current, line⟩ := reading
  dsimp only at hline hcurrent
  subst hline
  have hbyte : ∀ events lines, solid ⟨events, lines, []⟩ (some b :: stream) =
      solid ⟨events, lines, [b]⟩ stream := fun _ _ => rfl
  rw [solid_blank, hbyte, hbyte, solid_events, solid_events ⟨events, current, [b]⟩, filter_append,
    filter_cons_of_pos (by simpa using hcurrent), length_append, length_append, length_append,
    length_solid_begun stream (.inr (cons_ne_nil b [])) (.inl hcurrent)]
  simp only [filter_nil, length_singleton]
  omega

theorem line_symbols (reading : Reading) {bytes : Bytes} (hbytes : bytes ≠ []) :
    ((symbols bytes).foldl Reading.next reading).line = [] ↔ Blank bytes.getLast? := by
  have hsymbol : ∀ (other : Reading) (b : UInt8),
      (other.next (symbol b)).line = [] ↔ Blank (some b) := by
    intro other b
    have hblank : Blank (some b) ↔ isNewline b = true :=
      ⟨fun h => h b rfl, fun h c hc => Option.some.inj hc ▸ h⟩
    rw [hblank, symbol]
    by_cases hnewline : isNewline b = true
    · rw [if_pos hnewline, Reading.next]
      split <;> simp [hnewline]
    · rw [if_neg hnewline, Reading.next]
      simp [hnewline]
  induction bytes using symbols.induct generalizing reading with
  | case1 => exact absurd rfl hbytes
  | case2 b => exact hsymbol reading b
  | case3 b c rest hcrlf ih =>
    obtain ⟨rfl, rfl⟩ := hcrlf
    rw [symbols, if_pos ⟨rfl, rfl⟩, foldl_cons, getLast?_cons_cons]
    cases rest with
    | nil => exact hsymbol reading lf
    | cons d rest =>
      rw [getLast?_cons_cons]
      exact ih _ (cons_ne_nil _ _)
  | case4 b c rest hnot ih =>
    rw [symbols, if_neg hnot, foldl_cons, getLast?_cons_cons]
    exact ih _ (cons_ne_nil _ _)

/-- How a reading stands to the bytes behind it. -/
structure Reached (reading : Reading) (seen : Bytes) : Prop where
  line : reading.line = [] ↔ Blank seen.getLast?
  ended : ∀ p, seen = p ++ [cr] → reading.line = [] ∧ (reading.current = [] ↔ Blank p.getLast?)

theorem line_reached {reading : Reading} {seen : Bytes} {prevCr : Bool}
    (h : Reached reading seen) (hcr : prevCr = true → ∃ p, seen = p ++ [cr]) (chunk : Bytes) :
    ((symbols (withoutHalf prevCr chunk)).foldl Reading.next reading).line = [] ↔
      Blank (seen ++ chunk).getLast? := by
  match chunk with
  | [] =>
    rw [withoutHalf, if_neg (fun hhalf => by cases hhalf.2), append_nil]
    exact h.line
  | b :: rest =>
    rw [getLast?_append, getLast?_cons]
    by_cases hhalf : prevCr = true ∧ (b :: rest).head? = some lf
    · obtain rfl := Option.some.inj hhalf.2
      rw [withoutHalf, if_pos hhalf, tail_cons]
      cases rest with
      | nil =>
        obtain ⟨p, hp⟩ := hcr hhalf.1
        exact iff_of_true (h.ended p hp).1 fun c hc => by cases hc; rfl
      | cons c rest =>
        rw [line_symbols _ (cons_ne_nil _ _), getLast?_cons]
        rfl
    · rw [withoutHalf, if_neg hhalf, line_symbols _ (cons_ne_nil _ _), getLast?_cons]
      rfl

theorem reached_chunk {reading : Reading} {seen : Bytes} {prevCr : Bool}
    (h : Reached reading seen) (hcr : prevCr = true → ∃ p, seen = p ++ [cr]) {chunk : Bytes}
    (hchunk : chunk ≠ []) :
    Reached ((symbols (withoutHalf prevCr chunk)).foldl Reading.next reading) (seen ++ chunk) := by
  refine ⟨line_reached h hcr chunk, fun p hp => ?_⟩
  obtain ⟨front, b, rfl⟩ := (eq_nil_or_concat chunk).resolve_left hchunk
  rw [concat_eq_append, ← append_assoc] at hp
  obtain ⟨rfl, hb⟩ := append_inj' hp rfl
  obtain rfl := (List.cons.inj hb).1
  have hsplit : withoutHalf prevCr (front ++ [cr]) = withoutHalf prevCr front ++ [cr] := by
    cases front with
    | nil => rw [withoutHalf, if_neg (fun hhalf => absurd hhalf.2 (by decide)), withoutHalf,
        if_neg (fun hhalf => by cases hhalf.2)]
    | cons c front => exact withoutHalf_append prevCr (cons_ne_nil _ _) _
  have hend : ∀ before, symbols (withoutHalf before [cr]) = [none] := by
    intro before
    rw [withoutHalf, if_neg (fun hhalf => absurd hhalf.2 (by decide))]
    rfl
  rw [concat_eq_append, hsplit, symbols_append, hend, foldl_append,
    ← line_reached h hcr front, foldl_cons, foldl_nil]
  rw [Reading.next]
  split
  · rename_i hline
    exact ⟨rfl, iff_of_true rfl hline⟩
  · rename_i hline
    refine ⟨rfl, iff_of_false ?_ hline⟩
    exact append_ne_nil_of_right_ne_nil _ (cons_ne_nil _ _)

/-- The same as `Harmless`, behind the bytes seen so far. -/
def HarmlessAfter (prevCr : Bool) (seen : Bytes) (chunks : List Bytes) : Prop :=
  ∀ before after p q, chunks = before ++ [] :: after → seen ++ before.flatten = p ++ [cr] →
    (before.flatten = [] → prevCr = true) → after.flatten = lf :: q →
    Blank p.getLast? ∨ Blank q.head?

theorem harmlessAfter_chunk {prevCr : Bool} {seen chunk : Bytes} {chunks : List Bytes}
    (hchunk : chunk ≠ []) : HarmlessAfter prevCr seen (chunk :: chunks) ↔
      HarmlessAfter (endsInCr false chunk) (seen ++ chunk) chunks := by
  constructor
  · intro h before after p q hsplit hseen hpending hafter
    refine h (chunk :: before) after p q (by rw [hsplit, cons_append]) ?_ ?_ hafter
    · rw [flatten_cons, ← append_assoc]
      exact hseen
    · rw [flatten_cons]
      exact fun hnil => absurd (append_eq_nil_iff.mp hnil).1 hchunk
  · intro h before after p q hsplit hseen _ hafter
    cases before with
    | nil => exact absurd (List.cons.inj hsplit).1 hchunk
    | cons first before =>
      obtain ⟨rfl, hrest⟩ := List.cons.inj hsplit
      rw [flatten_cons, ← append_assoc] at hseen
      refine h before after p q hrest hseen (fun hnil => ?_) hafter
      obtain ⟨front, b, rfl⟩ := (eq_nil_or_concat chunk).resolve_left hchunk
      rw [hnil, append_nil, concat_eq_append, ← append_assoc] at hseen
      obtain rfl := (List.cons.inj (append_inj' hseen rfl).2).1
      rw [concat_eq_append, endsInCr, getLast?_concat]
      rfl

theorem harmlessAfter_empty {prevCr : Bool} {seen : Bytes} {chunks : List Bytes} :
    HarmlessAfter prevCr seen ([] :: chunks) ↔
      (prevCr = true → ∀ p q, seen = p ++ [cr] → chunks.flatten = lf :: q →
        Blank p.getLast? ∨ Blank q.head?) ∧ HarmlessAfter false seen chunks := by
  constructor
  · intro h
    refine ⟨fun hprev p q hseen hrest => ?_,
      fun before after p q hsplit hseen hpending hafter => ?_⟩
    · refine h [] chunks p q rfl ?_ (fun _ => hprev) hrest
      rw [flatten_nil, append_nil]
      exact hseen
    · refine h ([] :: before) after p q (by rw [hsplit, cons_append]) hseen ?_ hafter
      exact fun hnil => absurd (hpending hnil) Bool.false_ne_true
  · rintro ⟨hhere, hlater⟩ before after p q hsplit hseen hpending hafter
    cases before with
    | nil =>
      obtain rfl := (List.cons.inj hsplit).2
      rw [flatten_nil, append_nil] at hseen
      exact hhere (hpending rfl) p q hseen hafter
    | cons first before =>
      obtain rfl := (List.cons.inj hsplit).1
      have hrest : chunks = before ++ [] :: after := (List.cons.inj hsplit).2
      rw [flatten_cons, nil_append] at hseen hpending
      by_cases hnil : before.flatten = []
      · -- only empty chunks stand between the two
        refine hhere (hpending hnil) p q ?_ ?_
        · rw [hnil, append_nil] at hseen
          exact hseen
        · rw [hrest, flatten_append, hnil, flatten_cons, nil_append, nil_append]
          exact hafter
      · exact hlater before after p q hrest hseen (fun h => absurd h hnil) hafter

theorem head_symbols (bytes : Bytes) :
    Blank bytes.head? ↔ ∀ b, (symbols bytes).head? ≠ some (some b) := by
  have hsymbol : ∀ b, Blank (some b) ↔ ∀ c, some (symbol b) ≠ some (some c) := by
    intro b
    rw [symbol]
    constructor
    · intro h c
      rw [if_pos (h b rfl)]
      simp
    · intro h c hc
      obtain rfl := Option.some.inj hc
      by_contra hnot
      rw [if_neg hnot] at h
      exact h b rfl
  match bytes with
  | [] => exact iff_of_true (fun b hb => by cases hb) fun b hb => by cases hb
  | [b] => exact hsymbol b
  | b :: c :: rest =>
    rw [symbols]
    by_cases hcrlf : b = cr ∧ c = lf
    · rw [if_pos hcrlf, hcrlf.1]
      exact hsymbol cr
    · rw [if_neg hcrlf]
      exact hsymbol b

/-- The events of a cutting: at least as many as the stream has, and as many exactly when each empty
chunk within a pair is harmless; then they are the same. -/
theorem solid_heard {reading : Reading} {seen : Bytes} {prevCr : Bool} {chunks : List Bytes}
    (h : Reached reading seen) (hcr : prevCr = true → ∃ p, seen = p ++ [cr]) :
    (solid reading (symbols (withoutHalf prevCr chunks.flatten))).length ≤
      (solid reading (heard prevCr chunks)).length ∧
    ((solid reading (heard prevCr chunks)).length =
      (solid reading (symbols (withoutHalf prevCr chunks.flatten))).length →
        HarmlessAfter prevCr seen chunks) ∧
    (HarmlessAfter prevCr seen chunks → solid reading (heard prevCr chunks) =
      solid reading (symbols (withoutHalf prevCr chunks.flatten))) := by
  induction chunks generalizing reading seen prevCr with
  | nil =>
    have hnil : symbols (withoutHalf prevCr [].flatten) = heard prevCr [] := by
      rw [flatten_nil, withoutHalf, if_neg (fun hhalf => by cases hhalf.2)]
      rfl
    rw [hnil]
    refine ⟨Nat.le_refl _, fun _ before after p q hsplit => ?_, fun _ => rfl⟩
    cases before <;> cases hsplit
  | cons chunk chunks ih =>
    rw [heard, flatten_cons]
    by_cases hchunk : chunk = []
    · subst hchunk
      have hhalf : withoutHalf prevCr [] = [] := by
        rw [withoutHalf, if_neg (fun hhalf => by cases hhalf.2)]
      have hkept : withoutHalf false chunks.flatten = chunks.flatten := by
        rw [withoutHalf, if_neg (fun hhalf => Bool.false_ne_true hhalf.1)]
      have hlater := ih h (fun hfalse => absurd hfalse Bool.false_ne_true)
      rw [hkept] at hlater
      have hfalse : endsInCr false [] = false := rfl
      rw [hhalf, hfalse, symbols, nil_append, nil_append, harmlessAfter_empty]
      by_cases hpair : prevCr = true ∧ chunks.flatten.head? = some lf
      · -- the empty chunk makes two line ends of the pair
        obtain ⟨p, hp⟩ := hcr hpair.1
        obtain ⟨q, hq⟩ : ∃ q, chunks.flatten = lf :: q := by
          rcases hflat : chunks.flatten with _ | ⟨b, q⟩
          · rw [hflat] at hpair
            cases hpair.2
          · rw [hflat] at hpair
            exact ⟨q, by rw [Option.some.inj hpair.2]⟩
        obtain ⟨hline, hcurrent⟩ := h.ended p hp
        have hstream : symbols chunks.flatten = none :: symbols q := by
          rw [hq]
          exact symbols_append [lf] q
        have hwithout : withoutHalf prevCr chunks.flatten = q := by
          rw [withoutHalf, if_pos hpair, hq, tail_cons]
        rw [hstream] at hlater
        rw [hwithout]
        have hcond : (Blank p.getLast? ∨ Blank q.head?) ↔
            (prevCr = true → ∀ p' q', seen = p' ++ [cr] → chunks.flatten = lf :: q' →
              Blank p'.getLast? ∨ Blank q'.head?) := by
          constructor
          · intro hblank _ p' q' hp' hq'
            obtain ⟨rfl, -⟩ := append_inj' (hp.symm.trans hp') rfl
            obtain ⟨-, rfl⟩ := List.cons.inj (hq.symm.trans hq')
            exact hblank
          · exact fun hall => hall hpair.1 p q hp hq
        rw [← hcond]
        by_cases hblank : Blank p.getLast? ∨ Blank q.head?
        · have htwice : solid reading (none :: symbols q) = solid reading (symbols q) :=
            solid_twice hline (hblank.imp hcurrent.mpr (head_symbols q).mp)
          rw [htwice] at hlater
          exact ⟨hlater.1, fun heq => ⟨hblank, hlater.2.1 heq⟩, fun hall => hlater.2.2 hall.2⟩
        · rw [not_or, ← hcurrent, head_symbols] at hblank
          obtain ⟨b, hb⟩ := not_forall.mp hblank.2
          obtain ⟨rest, hrest⟩ : ∃ rest, symbols q = some b :: rest := by
            rcases hsymbols : symbols q with _ | ⟨s, rest⟩
            · rw [hsymbols] at hb
              exact absurd (fun hnone => by cases hnone) hb
            · rw [hsymbols, head?_cons, not_not] at hb
              exact ⟨rest, by rw [Option.some.inj hb]⟩
          have htwice : (solid reading (none :: symbols q)).length =
              (solid reading (symbols q)).length + 1 := by
            rw [hrest]
            exact length_solid_twice hline hblank.1
          refine ⟨by omega, fun heq => by omega, fun hall => ?_⟩
          rcases hall.1 with hp | hq
          · exact absurd (hcurrent.mpr hp) hblank.1
          · exact absurd ((head_symbols q).mp hq) hblank.2
      · have hwithout : withoutHalf prevCr chunks.flatten = chunks.flatten := by
          rw [withoutHalf, if_neg hpair]
        rw [hwithout]
        refine ⟨hlater.1, fun heq => ⟨fun hprev p q _ hq => ?_, hlater.2.1 heq⟩,
          fun hall => hlater.2.2 hall.2⟩
        exact absurd ⟨hprev, by rw [hq]; rfl⟩ hpair
    · rw [withoutHalf_append prevCr hchunk, symbols_append, solid_append, solid_append,
        harmlessAfter_chunk hchunk, endsInCr_withoutHalf prevCr hchunk]
      refine ih (reached_chunk h hcr hchunk) fun hends => ?_
      obtain ⟨front, b, rfl⟩ := (eq_nil_or_concat chunk).resolve_left hchunk
      rw [concat_eq_append, endsInCr, getLast?_concat] at hends
      refine ⟨seen ++ front, ?_⟩
      rw [concat_eq_append, of_decide_eq_true hends, append_assoc]

theorem harmlessAfter_iff {chunks : List Bytes} :
    HarmlessAfter false [] chunks ↔ Harmless chunks := by
  constructor
  · intro h before after p q hsplit hbefore hafter
    refine h before after p q hsplit hbefore (fun hnil => ?_) hafter
    rw [hnil] at hbefore
    exact absurd hbefore.symm (append_ne_nil_of_right_ne_nil _ (cons_ne_nil _ _))
  · intro h before after p q hsplit hbefore _ hafter
    exact h before after p q hsplit hbefore hafter

theorem reached_initial : Reached {} [] := by
  refine ⟨iff_of_true rfl (fun b hb => by cases hb), fun p hp => ?_⟩
  exact absurd hp.symm (append_ne_nil_of_right_ne_nil _ (cons_ne_nil _ _))

theorem wholeStream_solid (cap : ℕ) (stream : List Symbol) :
    wholeStream cap stream =
      summary ((solid {} stream).filterMap (outcome cap)) := by
  rw [wholeStream, eventsOf, solid, filterMap_filter]
  congr 2
  funext lines
  cases lines with
  | cons line lines => rfl
  | nil =>
    have hnone : ¬Exceeds cap [] := fun ⟨i, hi, _⟩ => Nat.not_lt_zero i hi
    rw [outcome, if_neg hnone]
    rfl

theorem line_ne_nil {reading : Reading}
    (h : ∀ lines ∈ reading.events ++ [reading.current], ∀ line ∈ lines, line ≠ [])
    (stream : List Symbol) : ∀ lines ∈ solid reading stream, ∀ line ∈ lines, line ≠ [] := by
  induction stream generalizing reading with
  | nil =>
    intro lines hlines line hline
    have hmem := (mem_filter.mp hlines).1
    rw [foldl_nil, Reading.rest] at hmem
    split at hmem
    · exact h lines hmem line hline
    · rename_i hopen
      rcases mem_append.mp hmem with hevent | hcurrent
      · exact h lines (mem_append_left _ hevent) line hline
      · rw [mem_singleton.mp hcurrent] at hline
        rcases mem_append.mp hline with hline | hline
        · exact h _ (mem_append_right _ mem_cons_self) line hline
        · rw [mem_singleton.mp hline]
          exact hopen
  | cons s stream ih =>
    suffices hnext : ∀ lines ∈ (reading.next s).events ++ [(reading.next s).current],
        ∀ line ∈ lines, line ≠ [] from ih hnext
    cases s with
    | some b => exact h
    | none =>
      rw [Reading.next]
      split
      · intro lines hlines line hline
        rcases mem_append.mp hlines with hevent | hnew
        · exact h lines hevent line hline
        · rw [mem_singleton.mp hnew] at hline
          cases hline
      · rename_i hopen
        intro lines hlines line hline
        rcases mem_append.mp hlines with hevent | hnew
        · exact h lines (mem_append_left _ hevent) line hline
        · rw [mem_singleton.mp hnew] at hline
          rcases mem_append.mp hline with hline | hline
          · exact h _ (mem_append_right _ mem_cons_self) line hline
          · rw [mem_singleton.mp hline]
            exact hopen

/-- Without any room every event that has a line is dropped. -/
theorem dropped_without_room (stream : List Symbol) :
    (wholeStream 0 stream).2.1 = (solid {} stream).length := by
  have hdropped : ∀ lines ∈ solid {} stream, outcome 0 lines = some .dropped := by
    intro lines hlines
    cases lines with
    | nil => cases (mem_filter.mp hlines).2
    | cons line lines =>
      have hline : line ≠ [] := line_ne_nil (by simp) stream _ hlines line mem_cons_self
      rw [outcome, if_pos ⟨0, Nat.succ_pos _, Nat.lt_of_lt_of_le
        (length_pos_iff.mpr hline) (Nat.le_add_left _ _)⟩]
  rw [wholeStream_solid]
  have hmap : (solid {} stream).filterMap (outcome 0) =
      List.replicate (solid {} stream).length .dropped := by
    generalize solid {} stream = events at hdropped
    induction events with
    | nil => rfl
    | cons lines events ih =>
      rw [filterMap_cons, hdropped lines mem_cons_self,
        ih fun other hother => hdropped other (mem_cons_of_mem _ hother)]
      rfl
  rw [hmap, summary]
  exact count_replicate_self

/-- The events of a cutting are those of the stream, whatever the limit, exactly where every empty
chunk within a pair is harmless. -/
theorem wholeStream_heard_iff (chunks : List Bytes) :
    (∀ cap, wholeStream cap (heard false chunks) =
      wholeStream cap (symbols chunks.flatten)) ↔ Harmless chunks := by
  have hkept : withoutHalf false chunks.flatten = chunks.flatten := by
    rw [withoutHalf, if_neg (fun hhalf => Bool.false_ne_true hhalf.1)]
  have hsolid := @solid_heard {} [] false chunks reached_initial
    (fun hfalse => absurd hfalse Bool.false_ne_true)
  rw [hkept, harmlessAfter_iff] at hsolid
  constructor
  · intro h
    apply hsolid.2.1
    rw [← dropped_without_room, ← dropped_without_room, h 0]
  · intro h cap
    rw [wholeStream_solid, wholeStream_solid, hsolid.2.2 h]

end Partings

section Simulation

variable {cap : ℕ}

theorem length_dataValue {line value : Bytes} (h : dataValue line = some value) :
    value.length + 1 ≤ line.length := by
  rw [dataValue] at h
  split at h
  · cases h
  · rcases hposition : line.findIdx? (· = colon) with _ | position
    · rw [hposition] at h
      cases h
    · rw [hposition] at h
      have hlt := (findIdx?_eq_some_iff_getElem.mp hposition).1
      dsimp only at h
      split at h
      · cases h
      · split at h
        · rw [← Option.some.inj h, length_drop]
          omega
        · rw [← Option.some.inj h, length_drop]
          omega

theorem intercalate_concat (separator : Bytes) (values : List Bytes) (value : Bytes) :
    separator.intercalate (values ++ [value]) =
      (if values = [] then [] else separator.intercalate values ++ separator) ++ value := by
  induction values with
  | nil => simp [List.intercalate]
  | cons first values ih =>
    cases values with
    | nil => simp [List.intercalate]
    | cons second values =>
      rw [if_neg (cons_ne_nil _ _)] at ih ⊢
      simp only [List.intercalate, cons_append, intersperse_cons_cons, flatten_cons,
        append_assoc] at ih ⊢
      rw [ih]

theorem dataOf_concat (lines : List Bytes) (line : Bytes) :
    dataOf (lines ++ [line]) = match dataValue line with
      | none => dataOf lines
      | some value =>
        (if lines.filterMap dataValue = [] then [] else dataOf lines ++ [lf]) ++ value := by
  rw [dataOf, filterMap_append, filterMap_cons]
  rcases dataValue line with _ | value
  · rw [filterMap_nil, append_nil]
    rfl
  · exact intercalate_concat _ _ _

theorem length_dataOf_concat (lines : List Bytes) (line : Bytes) :
    (dataOf (lines ++ [line])).length ≤ (dataOf lines).length + line.length := by
  rw [dataOf_concat]
  rcases hvalue : dataValue line with _ | value
  · exact Nat.le_add_right _ _
  · have hle := length_dataValue hvalue
    dsimp only
    split
    · rw [nil_append]
      omega
    · rw [length_append, length_append, length_singleton]
      omega

theorem exceeds_concat (lines : List Bytes) (line : Bytes) :
    Exceeds cap (lines ++ [line]) ↔
      Exceeds cap lines ∨ cap < (dataOf lines).length + line.length := by
  have hshared : ∀ i < lines.length, (lines ++ [line]).take i = lines.take i ∧
      (lines ++ [line]).getD i [] = lines.getD i [] := by
    intro i hi
    rw [take_append_of_le_length (Nat.le_of_lt hi), getD_append _ _ _ _ hi]
    exact ⟨rfl, rfl⟩
  constructor
  · rintro ⟨i, hi, hlarge⟩
    rw [length_append, length_singleton] at hi
    by_cases hlt : i < lines.length
    · rw [(hshared i hlt).1, (hshared i hlt).2] at hlarge
      exact .inl ⟨i, hlt, hlarge⟩
    · obtain rfl : i = lines.length := by omega
      right
      rw [take_left, getD_append_right _ _ _ _ (Nat.le_refl _), Nat.sub_self] at hlarge
      exact hlarge
  · rintro (⟨i, hi, hlarge⟩ | hlarge)
    · refine ⟨i, by rw [length_append]; omega, ?_⟩
      rw [(hshared i hi).1, (hshared i hi).2]
      exact hlarge
    · refine ⟨lines.length, by rw [length_append, length_singleton]; omega, ?_⟩
      rw [take_left, getD_append_right _ _ _ _ (Nat.le_refl _), Nat.sub_self]
      exact hlarge

theorem length_dataOf {lines : List Bytes} (h : ¬Exceeds cap lines) :
    (dataOf lines).length ≤ cap := by
  induction lines using List.reverseRecOn with
  | nil => exact Nat.zero_le _
  | append_singleton lines line ih =>
    rw [exceeds_concat, not_or] at h
    have hle := length_dataOf_concat lines line
    omega

theorem exceeds_concat_nil (lines : List Bytes) :
    Exceeds cap (lines ++ [[]]) ↔ Exceeds cap lines := by
  rw [exceeds_concat]
  constructor
  · rintro (h | hlarge)
    · exact h
    · by_contra hnot
      have hle := length_dataOf hnot
      rw [length_nil] at hlarge
      omega
  · exact .inl

theorem not_exceeds_fresh (cap : ℕ) : ¬Exceeds cap ([] ++ [[]]) := by
  rw [exceeds_concat_nil]
  rintro ⟨i, hi, -⟩
  exact Nat.not_lt_zero i hi

theorem exceeds_rest (reading : Reading) :
    Exceeds cap reading.rest ↔
      Exceeds cap (reading.current ++ [reading.line]) := by
  rw [Reading.rest]
  split
  · rename_i hline
    rw [hline, exceeds_concat_nil]
  · rfl

/-- What has become of the events so far, with the drop of the one being read. -/
def outcomes (cap : ℕ) (reading : Reading) : List Outcome :=
  reading.events.filterMap (outcome cap) ++
    if Exceeds cap (reading.current ++ [reading.line]) then [.dropped] else []

/-- The scanner holds the event being read, or discards it because it is too large. -/
structure Follows (cap : ℕ) (scan : Scan) (reading : Reading) : Prop where
  results : (scan.payloads, scan.droppedEvents, scan.state.tail) =
    summary (outcomes cap reading)
  holds : scan.state.skip = .notSkipping →
    ¬Exceeds cap (reading.current ++ [reading.line]) ∧
    scan.state.lineBuf = reading.line ∧ scan.state.dataBuf = dataOf reading.current ∧
    scan.state.hasData = !(reading.current.filterMap dataValue).isEmpty
  discards : scan.state.skip ≠ .notSkipping →
    Exceeds cap (reading.current ++ [reading.line]) ∧
    (scan.state.skip = .lineEmptySoFar ↔ reading.line = []) ∧
    scan.state.lineBuf = [] ∧ scan.state.dataBuf = [] ∧ scan.state.hasData = false

theorem summary_dropped (outcomes : List Outcome) : summary (outcomes ++ [.dropped]) =
    ((summary outcomes).1, (summary outcomes).2.1 + 1, .dropped) := by
  simp [summary, Outcome.data, Outcome.tail]

theorem summary_payload (outcomes : List Outcome) (data : Bytes) :
    summary (outcomes ++ [.payload data]) =
      ((summary outcomes).1 ++ [data], (summary outcomes).2.1, .payload) := by
  simp [summary, Outcome.data, Outcome.tail, count_append]

theorem outcomes_held {reading : Reading}
    (h : ¬Exceeds cap (reading.current ++ [reading.line])) :
    outcomes cap reading = reading.events.filterMap (outcome cap) := by
  rw [outcomes, if_neg h, append_nil]

theorem outcomes_discarded {reading : Reading}
    (h : Exceeds cap (reading.current ++ [reading.line])) :
    outcomes cap reading =
      reading.events.filterMap (outcome cap) ++ [.dropped] := by
  rw [outcomes, if_pos h]

theorem outcomes_congr (reading later : Reading) (hevents : later.events = reading.events)
    (h : Exceeds cap (later.current ++ [later.line]) ↔
      Exceeds cap (reading.current ++ [reading.line])) :
    outcomes cap later = outcomes cap reading := by
  rw [outcomes, outcomes, hevents]
  by_cases hexceeds : Exceeds cap (reading.current ++ [reading.line])
  · rw [if_pos hexceeds, if_pos (h.mpr hexceeds)]
  · rw [if_neg hexceeds, if_neg (fun hlater => hexceeds (h.mp hlater))]

theorem exceeds_byte {lines : List Bytes} {line : Bytes} (b : UInt8)
    (h : Exceeds cap (lines ++ [line])) :
    Exceeds cap (lines ++ [line ++ [b]]) := by
  rw [exceeds_concat] at h ⊢
  rw [length_append, length_singleton]
  rcases h with h | hlarge
  · exact .inl h
  · right
    omega

theorem scanByte_skipping {skip : SkipPhase} (hskip : skip ≠ .notSkipping) {b : UInt8}
    (hb : isNewline b = false) {prevCr : Bool} {bytes dropped : ℕ} {tail : ScanTail}
    {payloads : List Bytes} :
    scanByte cap ⟨⟨[], [], false, prevCr, bytes, skip, tail⟩, payloads, dropped⟩ b =
      ⟨⟨[], [], false, prevCr, bytes, .lineHasContent, tail⟩, payloads, dropped⟩ := by
  cases skip <;> simp_all [scanByte, consume, limit]

theorem follows_byte {scan : Scan} {reading : Reading} {b : UInt8}
    (h : Follows cap scan reading) (hb : isNewline b = false) :
    Follows cap (scanByte cap scan b) (reading.next (some b)) := by
  obtain ⟨⟨line, data, hasData, prevCr, bytes, skip, tail⟩, payloads, dropped⟩ := scan
  obtain ⟨hresults, hholds, hdiscards⟩ := h
  dsimp only at hresults hholds hdiscards
  cases skip with
  | notSkipping =>
    obtain ⟨hheld, rfl, rfl, hhas⟩ := hholds rfl
    have hconsume : consume ⟨⟨reading.line, dataOf reading.current, hasData, prevCr, bytes,
        .notSkipping, tail⟩, payloads, dropped⟩ b = ⟨⟨reading.line ++ [b], dataOf reading.current,
        hasData, prevCr, bytes, .notSkipping, tail⟩, payloads, dropped⟩ := by
      simp only [consume, hb, Bool.false_eq_true, if_false]
    have hlarger : Exceeds cap (reading.current ++ [reading.line ++ [b]]) ↔
        cap < (reading.line ++ [b]).length + (dataOf reading.current).length := by
      rw [exceeds_concat, not_or] at hheld
      rw [exceeds_concat, Nat.add_comm]
      exact or_iff_right hheld.1
    rw [outcomes_held hheld] at hresults
    rw [scanByte, hconsume, limit, if_neg (fun hne => hne rfl), scratch, Reading.next]
    by_cases hlarge : cap <
        (reading.line ++ [b]).length + (dataOf reading.current).length
    · rw [if_pos hlarge, hb]
      refine ⟨?_, fun hskip => (by cases hskip), fun _ => ?_⟩
      · rw [outcomes_discarded (hlarger.mpr hlarge), summary_dropped, ← hresults]
      · refine ⟨hlarger.mpr hlarge, ?_, rfl, rfl, rfl⟩
        simp
    · rw [if_neg hlarge]
      refine ⟨?_, fun _ => ?_, fun hskip => absurd rfl hskip⟩
      · rw [outcomes_held (fun hexceeds => hlarge (hlarger.mp hexceeds)), ← hresults]
      · exact ⟨fun hexceeds => hlarge (hlarger.mp hexceeds), rfl, rfl, hhas⟩
  | lineEmptySoFar | lineHasContent =>
    obtain ⟨hlarge, hempty, rfl, rfl, rfl⟩ := hdiscards (by decide)
    have hlarger := exceeds_byte b hlarge
    rw [scanByte_skipping ?skipping hb]
    case skipping => decide
    refine ⟨?_, fun hskip => (by cases hskip), fun _ => ⟨hlarger, ?_, rfl, rfl, rfl⟩⟩
    · rw [outcomes_congr reading (reading.next (some b)) rfl (iff_of_true hlarger hlarge),
        ← hresults]
    · simp [Reading.next]

/-- What a finished event gives, by what the scanner holds of it. -/
theorem outcome_held {lines : List Bytes} (h : ¬Exceeds cap lines) :
    outcome cap lines =
      if (lines.filterMap dataValue).isEmpty then none else some (.payload (dataOf lines)) := by
  rw [outcome, if_neg h]
  rcases lines.filterMap dataValue with _ | ⟨value, values⟩ <;> rfl

theorem filterMap_concat (events : List (List Bytes)) (lines : List Bytes) :
    (events ++ [lines]).filterMap (outcome cap) =
      events.filterMap (outcome cap) ++ (outcome cap lines).toList := by
  rw [filterMap_append, filterMap_cons]
  cases outcome cap lines <;> rfl

theorem outcome_discarded {lines : List Bytes} (h : Exceeds cap lines) :
    outcome cap lines = some .dropped := by
  rw [outcome, if_pos h]

theorem processLine_line {line : Bytes} (hline : line ≠ []) (lines : List Bytes)
    (payloads : List Bytes) :
    processLine line (dataOf lines) (!(lines.filterMap dataValue).isEmpty) payloads =
      (dataOf (lines ++ [line]), !((lines ++ [line]).filterMap dataValue).isEmpty, payloads) := by
  rw [processLine, if_neg hline, dataOf_concat, filterMap_append, filterMap_cons]
  rcases dataValue line with _ | value
  · rw [filterMap_nil, append_nil]
  · rcases hvalues : lines.filterMap dataValue with _ | ⟨first, values⟩
    · have hnil : dataOf lines = [] := by rw [dataOf, hvalues]; rfl
      simp [hnil]
    · simp

theorem follows_end {scan : Scan} {reading : Reading} (h : Follows cap scan reading) :
    Follows cap (scanByte cap scan lf) (reading.next none) := by
  obtain ⟨⟨line, data, hasData, prevCr, bytes, skip, tail⟩, payloads, dropped⟩ := scan
  obtain ⟨hresults, hholds, hdiscards⟩ := h
  dsimp only at hresults hholds hdiscards
  have hlf : isNewline lf = true := rfl
  have hfresh := not_exceeds_fresh cap
  cases skip with
  | notSkipping =>
    obtain ⟨hheld, rfl, rfl, rfl⟩ := hholds rfl
    rw [outcomes_held hheld] at hresults
    by_cases hline : reading.line = []
    · -- a blank line finishes the event
      rw [hline, exceeds_concat_nil] at hheld
      have houtcome := outcome_held hheld
      rw [Reading.next, if_pos hline, scanByte]
      rcases hvalues : (reading.current.filterMap dataValue).isEmpty with _ | _
      · rw [hvalues, if_neg Bool.false_ne_true] at houtcome
        have hscan : limit cap lf (consume ⟨⟨reading.line, dataOf reading.current, true,
            prevCr, bytes, .notSkipping, tail⟩, payloads, dropped⟩ lf) = ⟨⟨[], [], false, prevCr, 0,
            .notSkipping, .payload⟩, payloads ++ [dataOf reading.current], dropped⟩ := by
          simp [consume, hlf, hline, processLine, limit, scratch]
        rw [Bool.not_false, hscan]
        refine ⟨?_, fun _ => ⟨hfresh, rfl, rfl, rfl⟩, fun hskip => absurd rfl hskip⟩
        rw [outcomes_held hfresh, filterMap_concat, houtcome, toList_some, summary_payload,
          ← hresults]
      · rw [hvalues, if_pos rfl] at houtcome
        have hnil : dataOf reading.current = [] := by
          rw [dataOf, isEmpty_iff.mp hvalues]
          rfl
        have hscan : limit cap lf (consume ⟨⟨reading.line, dataOf reading.current,
            false, prevCr, bytes, .notSkipping, tail⟩, payloads, dropped⟩ lf) =
            ⟨⟨[], [], false, prevCr, 0, .notSkipping, tail⟩, payloads, dropped⟩ := by
          simp [consume, hlf, hline, hnil, processLine, limit, scratch]
        rw [Bool.not_true, hscan]
        refine ⟨?_, fun _ => ⟨hfresh, rfl, rfl, rfl⟩, fun hskip => absurd rfl hskip⟩
        rw [outcomes_held hfresh, filterMap_concat, houtcome, toList_none, append_nil, ← hresults]
    · -- another line of the event
      have hlater : ¬Exceeds cap (reading.current ++ [reading.line] ++ [[]]) := by
        rw [exceeds_concat_nil]
        exact hheld
      have hroom := length_dataOf hheld
      have hscan : scanByte cap ⟨⟨reading.line, dataOf reading.current,
          !(reading.current.filterMap dataValue).isEmpty, prevCr, bytes, .notSkipping, tail⟩,
          payloads, dropped⟩ lf = ⟨⟨[], dataOf (reading.current ++ [reading.line]),
          !((reading.current ++ [reading.line]).filterMap dataValue).isEmpty, prevCr,
          (dataOf (reading.current ++ [reading.line])).length, .notSkipping, tail⟩, payloads,
          dropped⟩ := by
        simp only [scanByte, consume, hlf, if_true, processLine_line hline, limit, scratch,
          length_nil, Nat.zero_add, lt_irrefl, if_false, ne_eq, not_true_eq_false,
          Nat.not_lt.mpr hroom]
      rw [Reading.next, if_neg hline, hscan]
      refine ⟨?_, fun _ => ⟨hlater, rfl, rfl, rfl⟩, fun hskip => absurd rfl hskip⟩
      rw [outcomes_held hlater, ← hresults]
  | lineEmptySoFar =>
    obtain ⟨hlarge, hempty, rfl, rfl, rfl⟩ := hdiscards (by decide)
    have hline := hempty.mp rfl
    have hscan : scanByte cap ⟨⟨[], [], false, prevCr, bytes, .lineEmptySoFar, tail⟩,
        payloads, dropped⟩ lf =
        ⟨⟨[], [], false, prevCr, 0, .notSkipping, tail⟩, payloads, dropped⟩ := by
      simp [scanByte, consume, hlf, limit, scratch]
    rw [outcomes_discarded hlarge] at hresults
    rw [hline, exceeds_concat_nil] at hlarge
    rw [hscan, Reading.next, if_pos hline]
    refine ⟨?_, fun _ => ⟨hfresh, rfl, rfl, rfl⟩, fun hskip => absurd rfl hskip⟩
    rw [outcomes_held hfresh, filterMap_concat, outcome_discarded hlarge, toList_some, ← hresults]
  | lineHasContent =>
    obtain ⟨hlarge, hempty, rfl, rfl, rfl⟩ := hdiscards (by decide)
    have hline : reading.line ≠ [] := fun hnil => by cases hempty.mpr hnil
    have hscan : scanByte cap ⟨⟨[], [], false, prevCr, bytes, .lineHasContent, tail⟩,
        payloads, dropped⟩ lf =
        ⟨⟨[], [], false, prevCr, bytes, .lineEmptySoFar, tail⟩, payloads, dropped⟩ := by
      simp [scanByte, consume, hlf, limit]
    have hlater : Exceeds cap (reading.current ++ [reading.line] ++ [[]]) := by
      rw [exceeds_concat_nil]
      exact hlarge
    rw [hscan, Reading.next, if_neg hline]
    refine ⟨?_, fun hskip => (by cases hskip), fun _ => ⟨hlater, by simp, rfl, rfl, rfl⟩⟩
    rw [outcomes_congr reading ⟨reading.events, reading.current ++ [reading.line], []⟩ rfl
      (iff_of_true hlater hlarge), ← hresults]

theorem follows_initial : Follows cap {} {} := by
  have hfresh := not_exceeds_fresh cap
  refine ⟨?_, fun _ => ⟨hfresh, rfl, rfl, rfl⟩, fun hskip => absurd rfl hskip⟩
  rw [outcomes_held hfresh]
  rfl

def Clean (stream : List Symbol) : Prop := ∀ s ∈ stream, ∀ b, s = some b → isNewline b = false

theorem clean_symbols (bytes : Bytes) : Clean (symbols bytes) := by
  have hsymbol : ∀ c b, symbol c = some b → isNewline b = false := by
    intro c b hc
    rw [symbol] at hc
    split at hc
    · cases hc
    · rename_i hnot
      rw [← Option.some.inj hc]
      exact Bool.eq_false_iff.mpr hnot
  induction bytes using symbols.induct with
  | case1 => exact fun s hs => absurd hs not_mem_nil
  | case2 c =>
    intro s hs b hb
    rw [symbols, mem_singleton] at hs
    exact hsymbol c b (hs ▸ hb)
  | case3 c d bytes hcrlf ih =>
    intro s hs b hb
    rw [symbols, if_pos hcrlf] at hs
    rcases mem_cons.mp hs with rfl | hs
    · cases hb
    · exact ih s hs b hb
  | case4 c d bytes hnot ih =>
    intro s hs b hb
    rw [symbols, if_neg hnot] at hs
    rcases mem_cons.mp hs with rfl | hs
    · exact hsymbol c b hb
    · exact ih s hs b hb

theorem clean_heard (prevCr : Bool) (chunks : List Bytes) : Clean (heard prevCr chunks) := by
  induction chunks generalizing prevCr with
  | nil => exact fun s hs => absurd hs not_mem_nil
  | cons chunk chunks ih =>
    intro s hs b hb
    rw [heard] at hs
    rcases mem_append.mp hs with hs | hs
    · exact clean_symbols _ s hs b hb
    · exact ih _ s hs b hb

/-- The scanner follows the reading of the symbols. -/
theorem follows_foldl {stream : List Symbol} (h : Clean stream) :
    Follows cap (stream.foldl (scanSymbol cap) {}) (reading stream) := by
  induction stream using List.reverseRecOn with
  | nil => exact follows_initial
  | append_singleton stream s ih =>
    have hfollows := ih fun other hother => h other (mem_append_left _ hother)
    rw [foldl_append, reading, foldl_append]
    cases s with
    | none => exact follows_end hfollows
    | some b =>
      exact follows_byte hfollows (h _ (mem_append_right _ mem_cons_self) b rfl)

theorem flush_eq {scan : Scan} {stream : List Symbol}
    (h : Follows cap scan (reading stream)) :
    ((flushSseState scan).payloads, (flushSseState scan).droppedEvents,
      (flushSseState scan).state.tail) = wholeStream cap stream := by
  rw [wholeStream, eventsOf, filterMap_concat]
  generalize reading stream = reading at h
  obtain ⟨⟨line, data, hasData, prevCr, bytes, skip, tail⟩, payloads, dropped⟩ := scan
  obtain ⟨hresults, hholds, hdiscards⟩ := h
  dsimp only at hresults hholds hdiscards
  by_cases hskip : skip = .notSkipping
  · obtain ⟨hheld, rfl, rfl, rfl⟩ := hholds hskip
    rw [outcomes_held hheld] at hresults
    have hrest := hheld
    rw [← exceeds_rest] at hrest
    have hline : (if reading.line = [] then (dataOf reading.current,
        !(reading.current.filterMap dataValue).isEmpty, payloads) else
        processLine reading.line (dataOf reading.current)
          (!(reading.current.filterMap dataValue).isEmpty) payloads) =
        (dataOf reading.rest, !(reading.rest.filterMap dataValue).isEmpty, payloads) := by
      rw [Reading.rest]
      split
      · rfl
      · rename_i hline
        exact processLine_line hline _ _
    simp only [flushSseState, hline]
    rw [outcome_held hrest]
    rcases hvalues : (reading.rest.filterMap dataValue).isEmpty with _ | _
    · simp only [Bool.not_false, if_true, Bool.false_eq_true, if_false, toList_some,
        length_append, length_singleton, Nat.lt_succ_self]
      rw [summary_payload, ← hresults]
    · simp only [Bool.not_true, if_true, Bool.false_eq_true, if_false, toList_none,
        lt_irrefl, append_nil]
      exact hresults
  · obtain ⟨hlarge, -, rfl, rfl, rfl⟩ := hdiscards hskip
    rw [outcomes_discarded hlarge] at hresults
    rw [← exceeds_rest] at hlarge
    rw [outcome_discarded hlarge]
    simp only [flushSseState, if_true, Bool.false_eq_true, if_false, lt_irrefl, toList_some]
    exact hresults

theorem scratch_consume {scan : Scan} {reading : Reading} (h : Follows cap scan reading)
    (b : UInt8) : scratch (consume scan b) ≤ cap + 1 := by
  obtain ⟨⟨line, data, hasData, prevCr, bytes, skip, tail⟩, payloads, dropped⟩ := scan
  obtain ⟨-, hholds, hdiscards⟩ := h
  dsimp only at hholds hdiscards
  cases skip with
  | notSkipping =>
    obtain ⟨hheld, rfl, rfl, rfl⟩ := hholds rfl
    rw [exceeds_concat, not_or] at hheld
    by_cases hnewline : isNewline b = true
    · simp only [consume, hnewline, if_true, scratch, length_nil]
      by_cases hline : reading.line = []
      · simp only [processLine, hline, if_true]
        split
        · exact Nat.zero_le _
        · dsimp only
          omega
      · have hle := length_dataOf_concat reading.current reading.line
        rw [processLine_line hline]
        dsimp only
        omega
    · simp only [consume, hnewline, scratch]
      rw [if_neg Bool.false_ne_true, length_append, length_singleton]
      dsimp only
      omega
  | lineEmptySoFar =>
    obtain ⟨-, -, rfl, rfl, rfl⟩ := hdiscards (by decide)
    exact Nat.zero_le _
  | lineHasContent =>
    obtain ⟨-, -, rfl, rfl, rfl⟩ := hdiscards (by decide)
    by_cases hnewline : isNewline b = true
    · simp only [consume, hnewline, if_true, scratch]
      exact Nat.zero_le _
    · simp only [consume, hnewline, scratch]
      exact Nat.zero_le _

theorem follows_setPrevCr {scan : Scan} {reading : Reading}
    (h : Follows cap scan reading) (prevCr : Bool) :
    Follows cap (setPrevCr scan prevCr) reading :=
  ⟨h.results, h.holds, h.discards⟩

/-- Whatever the cutting, the scanner follows the reading of what it hears. -/
theorem follows_scanChunks (chunks : List Bytes) :
    Follows cap (scanChunks cap chunks) (reading (heard false chunks)) := by
  obtain ⟨prevCr, hchunks⟩ := scanChunks_eq cap {} chunks
  rw [scanChunks, hchunks]
  exact follows_setPrevCr (follows_foldl (clean_heard _ _)) prevCr

end Simulation

section Moments

variable {cap : ℕ}

/-- The most that `process_line` holds is the line and the data with it. -/
theorem lineMoments_le {line : Bytes} (hline : line ≠ []) (lines : List Bytes)
    (hheld : ¬Exceeds cap (lines ++ [line])) :
    (∀ moment ∈ lineMoments line (dataOf lines) (!(lines.filterMap dataValue).isEmpty),
      moment.size ≤ cap + 1) ↔
    line.length + (dataOf (lines ++ [line])).length ≤ cap + 1 := by
  have hprocess := congrArg Prod.fst (processLine_line hline lines [])
  rw [processLine, if_neg hline] at hprocess
  rw [exceeds_concat, not_or] at hheld
  rw [lineMoments, if_neg hline]
  rcases hvalue : dataValue line with _ | value
  · rw [hvalue] at hprocess
    dsimp only at hprocess
    rw [← hprocess]
    exact iff_of_true (fun moment hmem => absurd hmem not_mem_nil) (by omega)
  · rw [hvalue] at hprocess
    dsimp only at hprocess
    rw [← hprocess]
    simp only [mem_cons, not_mem_nil, or_false, forall_eq_or_imp, forall_eq,
      Buffers.size, length_append]
    omega

theorem buffers_scanByte_le {scan : Scan} {b : UInt8}
    (h : scratch (consume scan b) ≤ cap + 1) :
    (buffers (scanByte cap scan b)).size ≤ cap + 1 := by
  rw [scanByte, limit]
  split
  · exact h
  · split
    · exact Nat.zero_le _
    · exact h

/-- Outside of `process_line` there is always room. -/
theorem byteMoments_le {scan : Scan} {reading : Reading}
    (h : Follows cap scan reading) (b : UInt8) :
    (∀ moment ∈ byteMoments cap scan b, moment.size ≤ cap + 1) ↔
      (scan.state.skip = .notSkipping ∧ isNewline b = true →
        ∀ moment ∈ lineMoments scan.state.lineBuf scan.state.dataBuf scan.state.hasData,
          moment.size ≤ cap + 1) := by
  have hconsume := scratch_consume h b
  constructor
  · intro hall hline moment hmem
    apply hall
    rw [byteMoments, if_pos hline]
    exact mem_append_left _ (mem_append_left _ hmem)
  · intro hline moment hmem
    rw [byteMoments] at hmem
    simp only [append_assoc, mem_append, mem_cons, cons_append, not_mem_nil, or_false] at hmem
    rcases hmem with hmem | rfl | hmem | rfl
    · split at hmem
      · rename_i hends
        exact hline hends moment hmem
      · cases hmem
    · exact hconsume
    · split at hmem
      · rw [mem_singleton.mp hmem, Buffers.size, length_nil]
        rw [scratch] at hconsume
        dsimp only
        omega
      · cases hmem
    · exact buffers_scanByte_le hconsume

/-- The buffers keep within the limit and one byte while a byte is handled, unless it ends a line
that does not fit in twice. -/
theorem byteMoments_iff {scan : Scan} {reading : Reading}
    (h : Follows cap scan reading) (b : UInt8) :
    (∀ moment ∈ byteMoments cap scan b, moment.size ≤ cap + 1) ↔
      (isNewline b = true → Roomy cap reading) := by
  rw [byteMoments_le h]
  by_cases hskip : scan.state.skip = .notSkipping
  · obtain ⟨hheld, hbuf, hdata, hhas⟩ := h.holds hskip
    rw [hbuf, hdata, hhas, and_iff_right hskip]
    refine forall_congr' fun _ => ?_
    by_cases hline : reading.line = []
    · -- a blank line adds no data
      refine iff_of_true (fun moment hmem => ?_) fun hne => absurd hline hne
      rw [hline, lineMoments, if_pos rfl] at hmem
      split at hmem
      · rw [mem_singleton.mp hmem]
        exact Nat.zero_le _
      · cases hmem
    · rw [lineMoments_le hline _ hheld]
      exact ⟨fun hroom _ _ => hroom, fun hroom => hroom hline hheld⟩
  · -- a line of a discarded event is not kept
    exact iff_of_true (fun hends => absurd hends.1 hskip)
      fun _ _ hheld => absurd (h.discards hskip).1 hheld

theorem flushMoments_iff {scan : Scan} {reading : Reading}
    (h : Follows cap scan reading) :
    (∀ moment ∈ flushMoments scan, moment.size ≤ cap + 1) ↔
      Roomy cap reading := by
  by_cases hskip : scan.state.skip = .notSkipping
  · obtain ⟨hheld, hbuf, hdata, hhas⟩ := h.holds hskip
    by_cases hline : reading.line = []
    · refine iff_of_true (fun moment hmem => ?_) fun hne => absurd hline hne
      rw [hline, exceeds_concat_nil] at hheld
      have hroom := length_dataOf hheld
      rw [flushMoments, if_pos (hbuf.trans hline), nil_append] at hmem
      rw [mem_singleton.mp hmem]
      simp only [buffers, flushSseState, hbuf, hline, if_true, Buffers.size, length_nil, hdata]
      split
      · exact Nat.zero_le _
      · omega
    · have hroom := length_dataOf hheld
      have hprocess := processLine_line hline reading.current scan.payloads
      have hroomy : Roomy cap reading ↔ reading.line.length +
          (dataOf (reading.current ++ [reading.line])).length ≤ cap + 1 :=
        ⟨fun hfits => hfits hline hheld, fun hfits _ _ => hfits⟩
      rw [hroomy, ← lineMoments_le hline _ hheld, flushMoments, buffers, flushSseState, hbuf, hdata,
        hhas, if_neg hline, if_neg hline, hprocess]
      simp only [append_assoc, mem_append, mem_singleton, or_imp, forall_and,
        forall_eq, Buffers.size, length_nil, Nat.zero_add]
      refine and_iff_left ⟨by omega, ?_⟩
      split
      · exact Nat.zero_le _
      · omega
  · obtain ⟨hlarge, -, hbuf, hdata, hhas⟩ := h.discards hskip
    refine iff_of_true (fun moment hmem => ?_) fun _ hheld => absurd hlarge hheld
    rw [flushMoments, if_pos hbuf, nil_append] at hmem
    rw [mem_singleton.mp hmem]
    simp [buffers, flushSseState, hbuf, hdata, hhas, Buffers.size]

end Moments

section Results

/-- The results of a cutting are those of the whole stream, for every limit, exactly where each
empty chunk within a CRLF pair is harmless: anywhere else it makes two events of one, and without
room both are dropped. After any chunks, the last one cut anywhere, the buffers keep within the
limit and one byte while the next byte is handled, unless it ends a line that does not fit in a
second time: `process_line` copies the line before it is cleared. The same goes for the flush. -/
theorem scan_whole_stream_iff (chunks : List Bytes) :
    ((∀ cap, scanAll cap chunks = wholeStream cap (symbols chunks.flatten)) ↔
      Harmless chunks) ∧
    ∀ cap,
      (∀ b, (∀ moment ∈ byteMoments cap (scanChunks cap chunks) b,
          moment.size ≤ cap + 1) ↔
        (isNewline b = true → Roomy cap (reading (heard false chunks)))) ∧
      ((∀ moment ∈ flushMoments (scanChunks cap chunks),
          moment.size ≤ cap + 1) ↔
        Roomy cap (reading (heard false chunks))) := by
  have hscan : ∀ cap, scanAll cap chunks =
      wholeStream cap (heard false chunks) :=
    fun cap => flush_eq (follows_scanChunks chunks)
  refine ⟨?_, fun cap => ⟨byteMoments_iff (follows_scanChunks chunks),
    flushMoments_iff (follows_scanChunks chunks)⟩⟩
  simp only [hscan]
  exact wholeStream_heard_iff chunks

/-- One event in two chunks, cut within a CRLF pair. -/
theorem one_event_in_two_chunks :
    scanAll 64 [[100, 97, 116, 97, 58, 97, 13], [10, 100, 97, 116, 97, 58, 98, 10, 10]] =
      ([[97, 10, 98]], 0, .payload) ∧
    ∀ moment ∈ byteMoments 64
      (scanChunks 64 [[100, 97, 116, 97, 58, 97, 13], [10, 100, 97, 116, 97, 58, 98]]) 10,
      moment.size ≤ 65 := by
  have hharmless : Harmless
      [[100, 97, 116, 97, 58, 97, 13], [10, 100, 97, 116, 97, 58, 98, 10, 10]] := by
    intro before after p q hsplit
    have hmem : ([] : Bytes) ∈
        [[100, 97, 116, 97, 58, 97, 13], [10, 100, 97, 116, 97, 58, 98, 10, 10]] := by
      rw [hsplit]
      exact mem_append_right _ mem_cons_self
    exact absurd hmem (by decide)
  refine ⟨?_, (((scan_whole_stream_iff _).2 64).1 10).mpr fun _ => by decide +kernel⟩
  rw [(scan_whole_stream_iff _).1.mpr hharmless 64]
  decide +kernel

/-- An empty chunk within the pair makes two events of it; and at its end a line of sixty bytes is
held a second time, without its field name, before it is cleared. -/
theorem empty_chunk_parts_event :
    (scanAll 64 [[100, 97, 116, 97, 58, 97, 13], [], [10, 100, 97, 116, 97, 58, 98, 10, 10]] =
      ([[97], [98]], 0, .payload) ∧
    wholeStream 64 (symbols [100, 97, 116, 97, 58, 97, 13, 10, 100, 97, 116, 97, 58, 98, 10, 10]) =
      ([[97, 10, 98]], 0, .payload)) ∧
    ∃ moment ∈ byteMoments 64
      (scanChunks 64 [[100, 97, 116, 97, 58] ++ List.replicate 55 97]) 10, moment.size = 115 := by
  decide +kernel

/-- However a stream is cut, also within a CRLF pair, no payload is longer than the limit. -/
theorem payloads_within_limit (cap : ℕ) (chunks : List Bytes) :
    ∀ payload ∈ (scanAll cap chunks).1, payload.length ≤ cap := by
  have hscan : scanAll cap chunks = wholeStream cap (heard false chunks) :=
    flush_eq (follows_scanChunks chunks)
  rw [hscan]
  intro payload hpayload
  obtain ⟨result, hresult, hdata⟩ := mem_filterMap.mp hpayload
  obtain ⟨lines, -, houtcome⟩ := mem_filterMap.mp hresult
  cases result with
  | dropped => cases hdata
  | payload data =>
    rw [outcome] at houtcome
    split_ifs at houtcome with hlarge hnone
    · cases houtcome
    · rw [← Option.some.inj hdata, ← Outcome.payload.inj (Option.some.inj houtcome)]
      exact length_dataOf hlarge

/-- A payload of three bytes, cut in the middle of a line end, with room for just its line. -/
theorem full_payload_within_limit :
    [97, 98, 99] ∈ (scanAll 8 [[100, 97, 116, 97, 58, 97, 98, 99, 13], [10, 13]]).1 ∧
      ([97, 98, 99] : Bytes).length ≤ 8 := by
  have hmem : [97, 98, 99] ∈ (scanAll 8 [[100, 97, 116, 97, 58, 97, 98, 99, 13], [10, 13]]).1 := by
    decide +kernel
  exact ⟨hmem, payloads_within_limit 8 _ _ hmem⟩

end Results

end EventScanner
