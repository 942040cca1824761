import PraxisAi.SseFrames
import PraxisAi.ChunkedRuns

/-! # What the framing of a byte stream means

The frames of a whole stream, told without chunks: its lines, the groups of lines between empty
ones, and the fields of a group. The parser, fed in whatever chunks, finds these frames or runs
over its limit at the same byte. -/
namespace SseFraming

open List
open SseFrames SaturatingArithmetic ChunkedRuns

section Meaning

def dropBom (bytes : Bytes) : Bytes :=
  if utf8Bom <+: bytes then bytes.drop utf8Bom.length else bytes

/-- A line feed that belongs to the carriage return before it. -/
def skipLf : Bytes → Bytes
  | [] => []
  | b :: rest => if b = lf then rest else b :: rest

/-- The lines that end in the bytes; `line` is what the first one has already. -/
def linesFrom (line : Bytes) : Bytes → List Bytes
  | [] => []
  | b :: rest =>
    if b = lf then line :: linesFrom [] rest
    else if b = cr then
      line :: match rest with
        | [] => []
        | next :: rest' => if next = lf then linesFrom [] rest' else linesFrom [] (next :: rest')
    else linesFrom (line ++ [b]) rest

/-- The groups of lines that an empty line ends; `group` is what the first one has already. -/
def groupsFrom (group : List Bytes) : List Bytes → List (List Bytes)
  | [] => []
  | line :: rest =>
    if line = [] then group :: groupsFrom [] rest else groupsFrom (group ++ [line]) rest

/-- The name and the value of a line, unless it is a comment or has no colon. -/
def fieldOf (text : Bytes) : Option (Bytes × Bytes) :=
  if text.head? = some colon then none
  else (text.findIdx? (· == colon)).map fun colonPos =>
    (text.take colonPos,
      if text[colonPos + 1]? = some space then text.drop (colonPos + 2)
      else text.drop (colonPos + 1))

def valuesOf (name : Bytes) (group : List Bytes) : List Bytes :=
  ((group.filterMap fieldOf).filter fun field => field.1 == name).map Prod.snd

def frameOf (group : List Bytes) : Option SseFrame :=
  if valuesOf (ascii "data") group = [] then none
  else some {
    eventType := (valuesOf (ascii "event") group).getLast?.map fromUtf8Lossy
    data := [lf].intercalate (valuesOf (ascii "data") group) }

def framesOf (bytes : Bytes) : List SseFrame :=
  (groupsFrom [] (linesFrom [] (dropBom bytes))).filterMap frameOf

end Meaning

section Calls

/-- The parser is called with one chunk after the other, whatever it answers. -/
def calls : SseFrameParser → List Bytes →
    List (Except SseParseError (List SseFrame) × SseFrameParser)
  | _, [] => []
  | p, chunk :: rest => parseChunk p chunk :: calls (parseChunk p chunk).2 rest

def errorOf (call : Except SseParseError (List SseFrame) × SseFrameParser) :
    Option SseParseError :=
  match call.1 with
  | .error e => some e
  | .ok _ => none

def callFrames (call : Except SseParseError (List SseFrame) × SseFrameParser) : List SseFrame :=
  match call.1 with
  | .error _ => []
  | .ok frames => frames

def firstError (p : SseFrameParser) (chunks : List Bytes) : Option SseParseError :=
  (calls p chunks).findSome? errorOf

def lastParser (p : SseFrameParser) (chunks : List Bytes) : SseFrameParser :=
  ((calls p chunks).getLast?.map Prod.snd).getD p

def retained (p : SseFrameParser) : ℕ :=
  p.bomPrefixLen + p.lineBuf.length + p.dataBuf.length + p.eventType.elim 0 String.utf8ByteSize

end Calls

section Bytewise

def outcome (call : Except SseParseError (List SseFrame) × SseFrameParser) :
    Except SseParseError (List SseFrame × SseFrameParser) :=
  match call with
  | (.error e, _) => .error e
  | (.ok frames, p) => .ok (frames, p)

def checked (frames : List SseFrame) (p : SseFrameParser) :
    Except SseParseError (List SseFrame × SseFrameParser) :=
  match p.checkBufferLimit with
  | .error e => .error e
  | .ok () => .ok (frames, p)

def endLine (p : SseFrameParser) (b : UInt8) :
    Except SseParseError (List SseFrame × SseFrameParser) :=
  checked p.processLine.1.toList
    { ({ p.processLine.2 with lineBuf := [] } : SseFrameParser).recount with
      prevCr := decide (b = cr) }

def pushByte (p : SseFrameParser) (b : UInt8) :
    Except SseParseError (List SseFrame × SseFrameParser) :=
  checked [] { p with
    lineBuf := p.lineBuf ++ [b]
    scratchBytes := satAdd u64Max p.scratchBytes 1 }

def readByte (p : SseFrameParser) (b : UInt8) :
    Except SseParseError (List SseFrame × SseFrameParser) :=
  match p.matchBom b with
  | some p => checked [] p.recount
  | none => if b = lf ∨ b = cr then endLine p.leaveStart b else pushByte p.leaveStart b

/-- The parser over single bytes: whether a line feed is half of a line end is part of its state. -/
def takeByte (p : SseFrameParser) (b : UInt8) :
    Except SseParseError (List SseFrame × SseFrameParser) :=
  if p.prevCr = true ∧ b = lf then .ok ([], { p with prevCr := false })
  else readByte { p with prevCr := false } b

def Counted (p : SseFrameParser) : Prop := p.scratchBytes = p.bufferedBytes

theorem Counted.recount {p : SseFrameParser} (h : Counted p) : p.recount = p := by
  rw [SseFrameParser.recount, ← h]

theorem bufferedBytes_eq (p : SseFrameParser) : p.bufferedBytes = min (retained p) u64Max := by
  simp only [SseFrameParser.bufferedBytes, retained, satAdd]
  omega

theorem checked_ok {frames out : List SseFrame} {p p' : SseFrameParser}
    (h : checked frames p = .ok (out, p')) :
    out = frames ∧ p' = p ∧ p.scratchBytes ≤ p.maxBufferBytes := by
  rw [checked, SseFrameParser.checkBufferLimit] at h
  split at h
  · cases h
  · rename_i hcheck
    split at hcheck
    · cases hcheck
    · rename_i hle
      cases h
      exact ⟨rfl, rfl, Nat.not_lt.mp hle⟩

theorem counted_recount (p : SseFrameParser) : Counted p.recount := rfl

theorem leaveStart_past (p : SseFrameParser) : p.leaveStart.streamStart = .past := by
  rw [SseFrameParser.leaveStart]
  split
  · rename_i h
    exact h
  · rfl

theorem counted_leaveStart {p : SseFrameParser} (h : Counted p) : Counted p.leaveStart := by
  rw [SseFrameParser.leaveStart]
  split
  · exact h
  · exact counted_recount _

theorem counted_push {p : SseFrameParser} (h : Counted p) (b : UInt8) :
    Counted { p with
      lineBuf := p.lineBuf ++ [b]
      scratchBytes := satAdd u64Max p.scratchBytes 1 } := by
  rw [Counted, bufferedBytes_eq]
  have hcount : p.scratchBytes = min (retained p) u64Max := h.trans (bufferedBytes_eq p)
  simp only [hcount, retained, SseFrameParser.bomPrefixLen, satAdd, length_append, length_singleton]
  omega

def Kept (p p' : SseFrameParser) : Prop :=
  p'.prevCr = p.prevCr ∧ p'.maxBufferBytes = p.maxBufferBytes

theorem kept_matchBom {p p' : SseFrameParser} {b : UInt8} (h : p.matchBom b = some p') :
    Kept p p' := by
  rw [SseFrameParser.matchBom] at h
  split at h
  · cases h
  · split at h
    · cases h
      exact ⟨rfl, rfl⟩
    · cases h

theorem kept_leaveStart (p : SseFrameParser) : Kept p p.leaveStart := by
  rw [SseFrameParser.leaveStart]
  split
  · exact ⟨rfl, rfl⟩
  · exact ⟨rfl, rfl⟩

theorem kept_takeField (p : SseFrameParser) (field value : Bytes) :
    Kept p (p.takeField field value) := by
  rw [SseFrameParser.takeField]
  split
  · exact ⟨rfl, rfl⟩
  · split
    · exact ⟨rfl, rfl⟩
    · exact ⟨rfl, rfl⟩

theorem kept_processLine (p : SseFrameParser) : Kept p p.processLine.2 := by
  rw [SseFrameParser.processLine]
  split
  · rw [SseFrameParser.completeFrame]
    split
    · exact ⟨rfl, rfl⟩
    · exact ⟨rfl, rfl⟩
  · split
    · exact ⟨rfl, rfl⟩
    · split
      · exact ⟨rfl, rfl⟩
      · exact kept_takeField p _ _

structure Within (limit : ℕ) (p : SseFrameParser) : Prop where
  counted : Counted p
  sameLimit : p.maxBufferBytes = limit
  bounded : p.scratchBytes ≤ limit

theorem within_checked {frames out : List SseFrame} {p p' : SseFrameParser} {limit : ℕ}
    (hp : Counted p) (hlimit : p.maxBufferBytes = limit) (h : checked frames p = .ok (out, p')) :
    Within limit p' := by
  obtain ⟨-, rfl, hle⟩ := checked_ok h
  exact ⟨hp, hlimit, hlimit ▸ hle⟩

/-- What a byte leaves behind is counted and within the limit. -/
theorem within_readByte {p p' : SseFrameParser} {b : UInt8} {out : List SseFrame} (hp : Counted p)
    (h : readByte p b = .ok (out, p')) : Within p.maxBufferBytes p' := by
  rw [readByte] at h
  split at h
  · rename_i hbom
    exact within_checked (counted_recount _) (kept_matchBom hbom).2 h
  · have hstart := kept_leaveStart p
    split at h
    · rw [endLine] at h
      refine within_checked ?_ ?_ h
      · exact rfl
      · exact (kept_processLine _).2.trans hstart.2
    · exact within_checked (counted_push (counted_leaveStart hp) b) hstart.2 h

theorem takeByte_counted {p p' : SseFrameParser} {b : UInt8} {out : List SseFrame}
    (hp : Counted p) (h : takeByte p b = .ok (out, p')) : Counted p' := by
  rw [takeByte] at h
  split at h
  · cases h
    exact hp
  · have hp' : Counted { p with prevCr := false } := hp
    exact (within_readByte hp' h).counted

theorem withPrevCr_self {p : SseFrameParser} {c : Bool} (h : p.prevCr = c) :
    { p with prevCr := c } = p := by
  subst h
  rfl

theorem takeByte_eq_readByte {p : SseFrameParser} (h : p.prevCr = false) (b : UInt8) :
    takeByte p b = readByte p b := by
  rw [takeByte, h, if_neg (by simp), withPrevCr_self h]

theorem run_after_cr {p : SseFrameParser} (h : p.prevCr = false) (next : UInt8) (rest : Bytes) :
    run takeByte { p with prevCr := true } (next :: rest) =
      run takeByte p (if next = lf then rest else next :: rest) := by
  rw [run]
  by_cases hnext : next = lf
  · rw [if_pos hnext, takeByte, if_pos ⟨rfl, hnext⟩, resume_silent]
    exact congrArg (run takeByte · rest) (withPrevCr_self h)
  · rw [if_neg hnext, run, takeByte, if_neg (fun hboth => hnext hboth.2), takeByte_eq_readByte h]
    exact congrArg (fun p => resume (readByte p next) fun p' => run takeByte p' rest)
      (withPrevCr_self h)

theorem countCompleted_unlimited (countFrame : SseFrame → Bool) (counted : ℕ)
    (frame : Option SseFrame) : ∃ n, countCompleted none countFrame counted frame = .ok n := by
  cases frame with
  | none => exact ⟨counted, rfl⟩
  | some frame =>
    rw [countCompleted]
    split
    · exact ⟨_, rfl⟩
    · exact ⟨_, rfl⟩

/-- The loop over a chunk is the machine over its bytes, with the frames found before in front. -/
theorem parseBytes_eq_run (countFrame : SseFrame → Bool) : ∀ (bytes : Bytes)
    {p : SseFrameParser} (n : ℕ) (frames : List SseFrame), Counted p → p.prevCr = false →
    outcome (parseBytes none countFrame bytes p n frames) =
      resume (.ok (frames, p)) fun p => run takeByte p bytes
  | [], p, n, frames, hp, _ => by
    rw [parseBytes, hp.recount]
    exact (resume_done (.ok (frames, p))).symm
  | b :: rest, p, n, frames, hp, hcr => by
    have hrun : run takeByte p (b :: rest) =
        resume (readByte p b) fun p' => run takeByte p' rest := by
      rw [run, takeByte_eq_readByte hcr]
    have hgoal : resume (.ok (frames, p)) (fun p => run takeByte p (b :: rest)) =
        resume (.ok (frames, p)) fun _ => resume (readByte p b) fun p' => run takeByte p' rest := by
      simp only [resume, hrun]
    rw [hgoal, parseBytes, readByte]
    rcases hbom : p.matchBom b with _ | p₁
    · dsimp only
      by_cases hline : b = lf ∨ b = cr
      · rw [if_pos hline, if_pos hline, endLine]
        obtain ⟨m, hm⟩ := countCompleted_unlimited countFrame n p.leaveStart.processLine.1
        dsimp only
        rw [hm]
        have hq : Counted ({ p.leaveStart.processLine.2 with lineBuf := [] } :
          SseFrameParser).recount := counted_recount _
        have hqcr : ({ p.leaveStart.processLine.2 with lineBuf := [] } :
            SseFrameParser).recount.prevCr = false :=
          ((kept_processLine _).1.trans (kept_leaveStart p).1).trans hcr
        generalize ({ p.leaveStart.processLine.2 with lineBuf := [] } :
          SseFrameParser).recount = q at hq hqcr ⊢
        generalize p.leaveStart.processLine.1.toList = completed
        rcases rest with _ | ⟨next, rest⟩
        · have hkeep : (if b = cr ∧ ([] : Bytes) = [] then { q with prevCr := true } else q) =
              { q with prevCr := decide (b = cr) } := by
            by_cases hb : b = cr
            · rw [if_pos ⟨hb, rfl⟩, decide_eq_true hb]
            · rw [if_neg (fun h => hb h.1), decide_eq_false hb, withPrevCr_self hqcr]
          have hcounted : Counted { q with prevCr := decide (b = cr) } := hq
          rw [hkeep, checked]
          rcases ({ q with prevCr := decide (b = cr) } : SseFrameParser).checkBufferLimit with e | _
          · rfl
          · dsimp only
            rw [resume_resume, parseBytes, hcounted.recount]
            exact (resume_done (.ok (frames ++ completed, _))).symm
        · rw [if_neg (fun h => by cases h.2), checked]
          have hcheck : ({ q with prevCr := decide (b = cr) } : SseFrameParser).checkBufferLimit =
            q.checkBufferLimit := rfl
          rw [hcheck]
          rcases q.checkBufferLimit with e | _
          · rfl
          dsimp only
          rw [resume_resume]
          by_cases hb : b = cr
          · have hafter : (fun p' => run takeByte p' (next :: rest)) { q with prevCr := true } =
                run takeByte q (if next = lf then rest else next :: rest) :=
              run_after_cr hqcr next rest
            rw [decide_eq_true hb]
            simp only [resume, hafter, hb, true_and]
            by_cases hnext : next = lf
            · simp only [hnext, if_true]
              exact parseBytes_eq_run countFrame rest m _ hq hqcr
            · simp only [hnext, if_false]
              exact parseBytes_eq_run countFrame (next :: rest) m _ hq hqcr
          · rw [if_neg (fun h => hb h.1), decide_eq_false hb, withPrevCr_self hqcr]
            exact parseBytes_eq_run countFrame (next :: rest) m _ hq hqcr
      · rw [if_neg hline, if_neg hline, pushByte, checked]
        have hpush := counted_push (counted_leaveStart hp) b
        have hpushcr : ({ p.leaveStart with
            lineBuf := p.leaveStart.lineBuf ++ [b]
            scratchBytes := satAdd u64Max p.leaveStart.scratchBytes 1 } :
            SseFrameParser).prevCr = false := (kept_leaveStart p).1.trans hcr
        generalize ({ p.leaveStart with
          lineBuf := p.leaveStart.lineBuf ++ [b]
          scratchBytes := satAdd u64Max p.leaveStart.scratchBytes 1 } : SseFrameParser) = q at *
        rcases q.checkBufferLimit with e | _
        · rfl
        · dsimp only
          rw [resume_resume, parseBytes_eq_run countFrame rest n frames hpush hpushcr, append_nil]
    · dsimp only
      rw [checked]
      rcases p₁.recount.checkBufferLimit with e | _
      · rfl
      · dsimp only
        rw [resume_resume, parseBytes_eq_run countFrame rest n frames (counted_recount p₁)
          ((kept_matchBom hbom).1.trans hcr), append_nil]

theorem parseChunkInner_eq_run (countFrame : SseFrame → Bool) {p : SseFrameParser}
    (hp : Counted p) (chunk : Bytes) :
    outcome (parseChunkInner none countFrame p chunk) = run takeByte p chunk := by
  have hp' : Counted { p with prevCr := false } := hp
  rw [parseChunkInner]
  rcases chunk with _ | ⟨b, rest⟩
  · rw [if_pos isEmpty_nil, hp.recount]
    rfl
  · rw [if_neg (by simp)]
    dsimp only
    rw [parseBytes_eq_run countFrame _ 0 [] hp' rfl, resume_silent]
    by_cases hcr : p.prevCr = true
    · have hafter := run_after_cr (p := { p with prevCr := false }) rfl b rest
      have hself : { { p with prevCr := false } with prevCr := true } = p := withPrevCr_self hcr
      rw [hself] at hafter
      rw [hafter]
      simp only [hcr, head?_cons, Option.some.injEq, true_and, tail_cons]
    · have hcr' := Bool.eq_false_iff.mpr hcr
      rw [if_neg (fun h => hcr h.1), withPrevCr_self hcr']

theorem parseChunk_eq_run {p : SseFrameParser} (hp : Counted p) (chunk : Bytes) :
    outcome (parseChunk p chunk) = run takeByte p chunk :=
  parseChunkInner_eq_run (fun _ => true) hp chunk

def feed (p : SseFrameParser) (chunk : Bytes) :
    Except SseParseError (List SseFrame × SseFrameParser) := outcome (parseChunk p chunk)

/-- However the bytes are cut, the parser does what the machine does with them. -/
theorem feed_eq_run {p : SseFrameParser} (hp : Counted p) (chunks : List Bytes) :
    run feed p chunks = run takeByte p chunks.flatten :=
  run_flatten (fun hs chunk => parseChunk_eq_run hs chunk) takeByte_counted hp chunks

end Bytewise

section Histories

theorem firstError_eq (p : SseFrameParser) (chunks : List Bytes) :
    firstError p chunks = match run feed p chunks with
      | .error e => some e
      | .ok _ => none := by
  induction chunks generalizing p with
  | nil => rfl
  | cons chunk rest ih =>
    rw [firstError, calls, findSome?_cons, run, feed]
    rcases hcall : parseChunk p chunk with ⟨e | frames, p'⟩
    · rfl
    · have hrest := ih p'
      rw [firstError] at hrest
      simp only [errorOf, outcome, resume]
      rw [hrest]
      rcases run feed p' rest with e | ⟨later, p''⟩ <;> rfl

theorem calls_of_run {p p' : SseFrameParser} {chunks : List Bytes} {frames : List SseFrame}
    (h : run feed p chunks = .ok (frames, p')) :
    (calls p chunks).flatMap callFrames = frames ∧ lastParser p chunks = p' := by
  induction chunks generalizing p frames with
  | nil =>
    cases h
    exact ⟨rfl, rfl⟩
  | cons chunk rest ih =>
    obtain ⟨out, p₁, later, hchunk, hrest, rfl⟩ := run_cons_ok h
    obtain ⟨hframes, hlast⟩ := ih hrest
    rw [feed] at hchunk
    rcases hcall : parseChunk p chunk with ⟨e | found, p₂⟩
    · rw [hcall] at hchunk
      cases hchunk
    · rw [hcall] at hchunk
      cases hchunk
      constructor
      · rw [calls, flatMap_cons, hcall, hframes]
        rfl
      · rw [lastParser, calls, hcall, getLast?_cons]
        rw [lastParser] at hlast
        rw [← hlast]
        rcases (calls p₁ rest).getLast? with _ | call <;> rfl

end Histories

section Reading

structure Reads (p : SseFrameParser) (group : List Bytes) (line : Bytes) : Prop where
  past : p.streamStart = .past
  line : p.lineBuf = line
  eventType : p.eventType = (valuesOf (ascii "event") group).getLast?.map fromUtf8Lossy
  dataBuf : p.dataBuf = [lf].intercalate (valuesOf (ascii "data") group)
  hasData : p.hasData = !(valuesOf (ascii "data") group).isEmpty

theorem valuesOf_append (name : Bytes) (a b : List Bytes) :
    valuesOf name (a ++ b) = valuesOf name a ++ valuesOf name b := by
  rw [valuesOf, filterMap_append, filter_append, map_append]
  rfl

theorem valuesOf_no_field {name line : Bytes} (h : fieldOf line = none) :
    valuesOf name [line] = [] := by
  rw [valuesOf, filterMap_cons_none h]
  rfl

theorem valuesOf_field {name line field value : Bytes} (h : fieldOf line = some (field, value)) :
    valuesOf name [line] = if field = name then [value] else [] := by
  rw [valuesOf, filterMap_cons_some h, filterMap_nil, filter_singleton]
  by_cases hname : field = name
  · rw [if_pos hname, hname]
    simp
  · rw [if_neg hname, beq_false_of_ne hname]
    rfl

theorem intercalate_concat (sep last : Bytes) (values : List Bytes) :
    sep.intercalate (values ++ [last]) =
      (if values.isEmpty then [] else sep.intercalate values ++ sep) ++ last := by
  induction values with
  | nil => simp [List.intercalate]
  | cons first rest ih =>
    cases rest with
    | nil => simp [List.intercalate]
    | cons second rest => simpa [List.intercalate] using ih

theorem Reads.empty_line {p : SseFrameParser} {group : List Bytes} (h : Reads p group []) :
    p.processLine.1 = frameOf group ∧ Reads p.processLine.2 [] [] := by
  rw [SseFrameParser.processLine, h.line, if_pos isEmpty_nil, SseFrameParser.completeFrame,
    h.hasData, frameOf]
  by_cases hdata : valuesOf (ascii "data") group = []
  · rw [if_pos hdata, hdata]
    refine ⟨rfl, h.past, h.line, rfl, ?_, ?_⟩
    · exact h.dataBuf.trans (by rw [hdata]; rfl)
    · rfl
  · have hsome : (!(valuesOf (ascii "data") group).isEmpty) = true := by
      rw [Bool.not_eq_true', isEmpty_eq_false_iff]
      exact hdata
    rw [if_neg hdata, if_pos hsome, h.eventType, h.dataBuf]
    exact ⟨rfl, h.past, h.line, rfl, rfl, rfl⟩

theorem Reads.skip {p : SseFrameParser} {group : List Bytes} {line : Bytes}
    (h : Reads p group line) (hfield : fieldOf line = none) :
    Reads { p with lineBuf := [] } (group ++ [line]) [] where
  past := h.past
  line := rfl
  eventType := by rw [valuesOf_append, valuesOf_no_field hfield, append_nil]; exact h.eventType
  dataBuf := by rw [valuesOf_append, valuesOf_no_field hfield, append_nil]; exact h.dataBuf
  hasData := by rw [valuesOf_append, valuesOf_no_field hfield, append_nil]; exact h.hasData

theorem Reads.take {p : SseFrameParser} {group : List Bytes} {line field value : Bytes}
    (h : Reads p group line) (hfield : fieldOf line = some (field, value)) :
    Reads { p.takeField field value with lineBuf := [] } (group ++ [line]) [] := by
  have hne : ascii "event" ≠ ascii "data" := by decide
  rw [SseFrameParser.takeField]
  by_cases hdata : field = ascii "data"
  · rw [if_pos hdata]
    have hevents : valuesOf (ascii "event") (group ++ [line]) = valuesOf (ascii "event") group := by
      rw [valuesOf_append, valuesOf_field hfield, if_neg (fun h => hne (h.symm.trans hdata)),
        append_nil]
    have hvalues : valuesOf (ascii "data") (group ++ [line]) =
        valuesOf (ascii "data") group ++ [value] := by
      rw [valuesOf_append, valuesOf_field hfield, if_pos hdata]
    refine ⟨h.past, rfl, ?_, ?_, ?_⟩
    · rw [hevents]
      exact h.eventType
    · rw [hvalues, intercalate_concat]
      dsimp only
      rw [h.hasData, h.dataBuf]
      rcases valuesOf (ascii "data") group with _ | ⟨first, rest⟩
      · rfl
      · rfl
    · rw [hvalues]
      simp
  · rw [if_neg hdata]
    have hvalues : valuesOf (ascii "data") (group ++ [line]) = valuesOf (ascii "data") group := by
      rw [valuesOf_append, valuesOf_field hfield, if_neg hdata, append_nil]
    by_cases hevent : field = ascii "event"
    · rw [if_pos hevent]
      have hevents : valuesOf (ascii "event") (group ++ [line]) =
          valuesOf (ascii "event") group ++ [value] := by
        rw [valuesOf_append, valuesOf_field hfield, if_pos hevent]
      refine ⟨h.past, rfl, ?_, hvalues ▸ h.dataBuf, hvalues ▸ h.hasData⟩
      rw [hevents, getLast?_concat]
      rfl
    · rw [if_neg hevent]
      have hevents : valuesOf (ascii "event") (group ++ [line]) =
          valuesOf (ascii "event") group := by
        rw [valuesOf_append, valuesOf_field hfield, if_neg hevent, append_nil]
      exact ⟨h.past, rfl, hevents ▸ h.eventType, hvalues ▸ h.dataBuf, hvalues ▸ h.hasData⟩

theorem Reads.line_end {p : SseFrameParser} {group : List Bytes} {line : Bytes}
    (h : Reads p group line) (hline : line ≠ []) :
    p.processLine.1 = none ∧ Reads { p.processLine.2 with lineBuf := [] } (group ++ [line]) [] := by
  have hempty : ¬ line.isEmpty = true := by rwa [List.isEmpty_iff]
  rw [SseFrameParser.processLine, h.line, if_neg hempty]
  by_cases hcomment : line.head? = some colon
  · rw [if_pos hcomment]
    exact ⟨rfl, h.skip (by rw [fieldOf, if_pos hcomment])⟩
  · rw [if_neg hcomment]
    rcases hcolon : line.findIdx? (· == colon) with _ | colonPos
    · exact ⟨rfl, h.skip (by rw [fieldOf, if_neg hcomment, hcolon]; rfl)⟩
    · refine ⟨rfl, h.take ?_⟩
      rw [fieldOf, if_neg hcomment, hcolon, SseFrameParser.fieldValue, h.line]
      rfl

def framesFrom (group : List Bytes) (line bytes : Bytes) : List SseFrame :=
  (groupsFrom group (linesFrom line bytes)).filterMap frameOf

theorem framesFrom_push {b : UInt8} (h : ¬ (b = lf ∨ b = cr)) (group : List Bytes)
    (line rest : Bytes) :
    framesFrom group line (b :: rest) = framesFrom group (line ++ [b]) rest := by
  rw [not_or] at h
  rw [framesFrom, linesFrom.eq_def]
  dsimp only
  rw [if_neg h.1, if_neg h.2]
  rfl

theorem linesFrom_end {b : UInt8} (h : b = lf ∨ b = cr) (line rest : Bytes) :
    linesFrom line (b :: rest) = line :: linesFrom [] (if b = cr then skipLf rest else rest) := by
  have hne : lf ≠ cr := by decide
  rcases h with rfl | rfl
  · rw [linesFrom.eq_def]
    dsimp only
    rw [if_pos rfl, if_neg hne]
  · rw [linesFrom.eq_def]
    dsimp only
    rw [if_neg hne.symm, if_pos rfl, if_pos rfl]
    rcases rest with _ | ⟨next, rest⟩
    · rfl
    · dsimp only
      rw [skipLf]
      split <;> rfl

theorem framesFrom_empty {b : UInt8} (h : b = lf ∨ b = cr) (group : List Bytes) (rest : Bytes) :
    framesFrom group [] (b :: rest) =
      (frameOf group).toList ++ framesFrom [] [] (if b = cr then skipLf rest else rest) := by
  rw [framesFrom, linesFrom_end h, groupsFrom, if_pos rfl, filterMap_cons]
  rcases frameOf group with _ | frame <;> rfl

theorem framesFrom_line {b : UInt8} (h : b = lf ∨ b = cr) (group : List Bytes)
    {line : Bytes} (hline : line ≠ []) (rest : Bytes) :
    framesFrom group line (b :: rest) =
      framesFrom (group ++ [line]) [] (if b = cr then skipLf rest else rest) := by
  rw [framesFrom, linesFrom_end h, groupsFrom, if_neg hline]
  rfl

theorem matchBom_past {p : SseFrameParser} (h : p.streamStart = .past) (b : UInt8) :
    p.matchBom b = none := by
  rw [SseFrameParser.matchBom, h]

theorem leaveStart_self {p : SseFrameParser} (h : p.streamStart = .past) : p.leaveStart = p := by
  rw [SseFrameParser.leaveStart, h]

theorem Reads.prevCr {p : SseFrameParser} {group : List Bytes} {line : Bytes}
    (h : Reads p group line) (c : Bool) : Reads { p with prevCr := c } group line :=
  ⟨h.past, h.line, h.eventType, h.dataBuf, h.hasData⟩

theorem Reads.push {p : SseFrameParser} {group : List Bytes} {line : Bytes}
    (h : Reads p group line) (b : UInt8) (count : ℕ) :
    Reads { p with lineBuf := p.lineBuf ++ [b], scratchBytes := count } group (line ++ [b]) :=
  ⟨h.past, by rw [h.line], h.eventType, h.dataBuf, h.hasData⟩

theorem Reads.recount {p : SseFrameParser} {group : List Bytes} {line : Bytes}
    (h : Reads p group line) : Reads p.recount group line :=
  ⟨h.past, h.line, h.eventType, h.dataBuf, h.hasData⟩

theorem Reads.readByte {p p' : SseFrameParser} {group : List Bytes} {line : Bytes} {b : UInt8}
    {out : List SseFrame} (h : Reads p group line) (hcr : p.prevCr = false)
    (hstep : SseFraming.readByte p b = .ok (out, p')) :
    ∃ group' line', Reads p' group' line' ∧ ∀ rest, framesFrom group line (b :: rest) =
      out ++ framesFrom group' line' (if p'.prevCr then skipLf rest else rest) := by
  rw [SseFraming.readByte, matchBom_past h.past] at hstep
  dsimp only at hstep
  rw [leaveStart_self h.past] at hstep
  split at hstep
  · rename_i hend
    rw [endLine] at hstep
    obtain ⟨rfl, rfl, -⟩ := checked_ok hstep
    by_cases hline : line = []
    · subst hline
      obtain ⟨hframe, hreads⟩ := h.empty_line
      have hcleared : Reads { p.processLine.2 with lineBuf := [] } [] [] :=
        ⟨hreads.past, rfl, hreads.eventType, hreads.dataBuf, hreads.hasData⟩
      refine ⟨[], [], hcleared.recount.prevCr _, fun rest => ?_⟩
      rw [framesFrom_empty hend, hframe]
      simp only [decide_eq_true_eq]
    · obtain ⟨hframe, hreads⟩ := h.line_end hline
      refine ⟨group ++ [line], [], hreads.recount.prevCr _, fun rest => ?_⟩
      rw [framesFrom_line hend group hline, hframe]
      simp only [decide_eq_true_eq, Option.toList_none, nil_append]
  · rename_i hpush
    rw [pushByte] at hstep
    obtain ⟨rfl, rfl, -⟩ := checked_ok hstep
    refine ⟨group, line ++ [b], h.push b _, fun rest => ?_⟩
    rw [framesFrom_push hpush]
    simp only [hcr, Bool.false_eq_true, if_false, nil_append]

/-- The frames found in the rest of a stream are those of its lines. -/
theorem Reads.run {bytes : Bytes} : ∀ {p p' : SseFrameParser} {group : List Bytes} {line : Bytes}
    {out : List SseFrame}, Reads p group line → run takeByte p bytes = .ok (out, p') →
      out = framesFrom group line (if p.prevCr then skipLf bytes else bytes) := by
  induction bytes with
  | nil =>
    intro p p' group line out _ hrun
    cases hrun
    cases p.prevCr <;> rfl
  | cons b rest ih =>
    intro p p' group line out h hrun
    obtain ⟨out₁, p₁, later, hone, hrest, rfl⟩ := run_cons_ok hrun
    rw [takeByte] at hone
    split at hone
    · rename_i hskip
      cases hone
      have hlater := ih (h.prevCr false) hrest
      rw [hlater, hskip.1, hskip.2]
      rfl
    · rename_i hread
      obtain ⟨group', line', hreads, hframes⟩ := (h.prevCr false).readByte rfl hone
      have hbytes : (if p.prevCr then skipLf (b :: rest) else b :: rest) = b :: rest := by
        split
        · rename_i hcr
          rw [skipLf, if_neg fun hlf => hread ⟨hcr, hlf⟩]
        · rfl
      rw [hbytes, hframes rest, ih hreads hrest]

end Reading

section Start

/-- Nothing has been read but the first `k` bytes of a byte order mark. -/
structure Fresh (p : SseFrameParser) (k : ℕ) : Prop where
  start : p.streamStart = .checkingBom k
  partialMark : k < utf8Bom.length
  line : p.lineBuf = []
  eventType : p.eventType = none
  dataBuf : p.dataBuf = []
  hasData : p.hasData = false
  prevCr : p.prevCr = false

theorem Fresh.new (maxBufferBytes : ℕ) : Fresh (.new maxBufferBytes) 0 :=
  ⟨rfl, by decide, rfl, rfl, rfl, rfl, rfl⟩

theorem dropBom_mark (rest : Bytes) : dropBom (utf8Bom ++ rest) = rest := by
  rw [dropBom, if_pos (prefix_append _ _), drop_left]

theorem dropBom_other {k : ℕ} {b : UInt8} (hk : k < utf8Bom.length) (hb : utf8Bom[k]? ≠ some b)
    (rest : Bytes) : dropBom (utf8Bom.take k ++ b :: rest) = utf8Bom.take k ++ b :: rest := by
  rw [dropBom, if_neg]
  intro hmark
  apply hb
  obtain ⟨tail, htail⟩ := hmark
  have hlen : (utf8Bom.take k).length = k := by rw [length_take]; omega
  have hat : (utf8Bom ++ tail)[k]? = (utf8Bom.take k ++ b :: rest)[k]? := by rw [htail]
  rw [getElem?_append_left hk, getElem?_append_right (by omega), hlen, Nat.sub_self]
    at hat
  exact hat

theorem framesFrom_text {text : Bytes} (h : ∀ b ∈ text, ¬ (b = lf ∨ b = cr))
    (group : List Bytes) (line rest : Bytes) :
    framesFrom group line (text ++ rest) = framesFrom group (line ++ text) rest := by
  induction text generalizing line with
  | nil => rw [nil_append, append_nil]
  | cons b text ih =>
    rw [cons_append, framesFrom_push (h b mem_cons_self),
      ih fun c hc => h c (mem_cons_of_mem b hc), append_assoc]
    rfl

theorem framesFrom_mark (k : ℕ) (rest : Bytes) :
    framesFrom [] [] (utf8Bom.take k ++ rest) = framesFrom [] (utf8Bom.take k) rest := by
  have hmark : ∀ b ∈ utf8Bom, ¬ (b = lf ∨ b = cr) := by
    intro b hb
    simp only [utf8Bom, mem_cons, not_mem_nil, or_false] at hb
    rcases hb with rfl | rfl | rfl <;> decide
  exact framesFrom_text (fun b hb => hmark b (mem_of_mem_take hb)) [] [] rest

theorem Fresh.matchBom {p : SseFrameParser} {k : ℕ} (h : Fresh p k) (b : UInt8) :
    p.matchBom b = if utf8Bom[k]? = some b then
      some { p with
        streamStart := if k + 1 = utf8Bom.length then .past else .checkingBom (k + 1) }
      else none := by
  rw [SseFrameParser.matchBom, h.start]

theorem Fresh.leaveStart {p : SseFrameParser} {k : ℕ} (h : Fresh p k) :
    Reads p.leaveStart [] (utf8Bom.take k) ∧ p.leaveStart.prevCr = false := by
  rw [SseFrameParser.leaveStart, h.start]
  refine ⟨⟨rfl, ?_, h.eventType, h.dataBuf, h.hasData⟩, h.prevCr⟩
  change p.lineBuf ++ _ = _
  rw [h.line, nil_append]

theorem Fresh.readByte_other {p : SseFrameParser} {k : ℕ} (h : Fresh p k) {b : UInt8}
    (hb : utf8Bom[k]? ≠ some b) : readByte p b = readByte p.leaveStart b := by
  have hpast := leaveStart_past p
  rw [readByte, readByte, h.matchBom, if_neg hb, matchBom_past hpast, leaveStart_self hpast]

theorem Fresh.run {bytes : Bytes} : ∀ {p p' : SseFrameParser} {k : ℕ} {out : List SseFrame},
    Fresh p k → run takeByte p bytes = .ok (out, p') →
      out = framesFrom [] [] (dropBom (utf8Bom.take k ++ bytes)) := by
  induction bytes with
  | nil =>
    intro p p' k out h hrun
    cases hrun
    obtain hk : k < 3 := h.partialMark
    rcases k with _ | _ | _ | k
    · decide
    · decide
    · decide
    · omega
  | cons b rest ih =>
    intro p p' k out h hrun
    by_cases hb : utf8Bom[k]? = some b
    · obtain ⟨out₁, p₁, later, hone, hrest, rfl⟩ := run_cons_ok hrun
      rw [takeByte_eq_readByte h.prevCr, readByte, h.matchBom, if_pos hb] at hone
      obtain ⟨rfl, rfl, -⟩ := checked_ok hone
      have hmark : utf8Bom.take k ++ b :: rest = utf8Bom.take (k + 1) ++ rest := by
        rw [take_add_one, hb]
        simp
      rw [hmark, nil_append]
      by_cases hlast : k + 1 = utf8Bom.length
      · rw [hlast, take_length, dropBom_mark]
        rw [if_pos hlast] at hrest
        have hreads : Reads ({ p with streamStart := .past } : SseFrameParser).recount [] [] :=
          ⟨rfl, h.line, h.eventType, h.dataBuf, h.hasData⟩
        have hfound := hreads.run hrest
        rw [hfound]
        simp only [SseFrameParser.recount, h.prevCr, Bool.false_eq_true, if_false]
      · rw [if_neg hlast] at hrest
        have hmore : k + 1 < utf8Bom.length := Nat.lt_of_le_of_ne h.partialMark hlast
        have hfresh : Fresh ({ p with streamStart := .checkingBom (k + 1) } :
            SseFrameParser).recount (k + 1) :=
          ⟨rfl, hmore, h.line, h.eventType, h.dataBuf, h.hasData, h.prevCr⟩
        exact ih hfresh hrest
    · obtain ⟨hreads, hcr⟩ := h.leaveStart
      have hstep : takeByte p b = takeByte p.leaveStart b := by
        rw [takeByte_eq_readByte h.prevCr, takeByte_eq_readByte hcr, h.readByte_other hb]
      have hrun' : ChunkedRuns.run takeByte p.leaveStart (b :: rest) = .ok (out, p') := by
        rw [ChunkedRuns.run, ← hstep]
        exact hrun
      have hfound := hreads.run hrun'
      rw [dropBom_other h.partialMark hb, framesFrom_mark, hfound, hcr]
      rfl

/-- Fed byte by byte, the parser finds the frames of the stream. -/
theorem run_framesOf {maxBufferBytes : ℕ} {bytes : Bytes} {out : List SseFrame}
    {p : SseFrameParser} (h : run takeByte (.new maxBufferBytes) bytes = .ok (out, p)) :
    out = framesOf bytes := (Fresh.new maxBufferBytes).run h

end Start

section Chunkings

theorem counted_new (maxBufferBytes : ℕ) : Counted (.new maxBufferBytes) := rfl

theorem within_new (maxBufferBytes : ℕ) : Within maxBufferBytes (.new maxBufferBytes) :=
  ⟨rfl, rfl, Nat.zero_le _⟩

theorem within_takeByte {limit : ℕ} {p p' : SseFrameParser} {b : UInt8} {out : List SseFrame}
    (hp : Within limit p) (h : takeByte p b = .ok (out, p')) : Within limit p' := by
  rw [takeByte] at h
  split at h
  · cases h
    exact ⟨hp.counted, hp.sameLimit, hp.bounded⟩
  · have hcounted : Counted { p with prevCr := false } := hp.counted
    have hwithin := within_readByte hcounted h
    rwa [show ({ p with prevCr := false } : SseFrameParser).maxBufferBytes = limit from
      hp.sameLimit] at hwithin

theorem within_parseChunk {limit : ℕ} {p : SseFrameParser} (hp : Within limit p) {chunk : Bytes}
    (h : errorOf (parseChunk p chunk) = none) : Within limit (parseChunk p chunk).2 := by
  have hrun := parseChunk_eq_run hp.counted chunk
  rcases hcall : parseChunk p chunk with ⟨e | frames, p'⟩
  · rw [hcall] at h
    cases h
  · rw [hcall] at hrun
    exact run_invariant within_takeByte hp hrun.symm

/-- A call that succeeds after others that have leaves the parser within its limit. -/
theorem within_calls {limit : ℕ} : ∀ {chunks : List Bytes} {p : SseFrameParser}
    {before after : List (Except SseParseError (List SseFrame) × SseFrameParser)}
    {call : Except SseParseError (List SseFrame) × SseFrameParser}, Within limit p →
    calls p chunks = before ++ call :: after → (∀ c ∈ before, errorOf c = none) →
    errorOf call = none → Within limit call.2
  | [], p, before, after, call, _, heq, _, _ => absurd heq (by simp [calls])
  | chunk :: rest, p, [], after, call, hp, heq, _, hcall => by
    obtain ⟨rfl, -⟩ := List.cons.inj heq
    exact within_parseChunk hp hcall
  | chunk :: rest, p, first :: before, after, call, hp, heq, hbefore, hcall => by
    obtain ⟨rfl, hrest⟩ := List.cons.inj heq
    have hfirst := within_parseChunk hp (hbefore _ mem_cons_self)
    exact within_calls hfirst hrest (fun c hc => hbefore c (mem_cons_of_mem _ hc)) hcall

theorem Within.bufferedBytes_le {limit : ℕ} {p : SseFrameParser} (h : Within limit p) :
    p.bufferedBytes ≤ limit := h.counted.symm.le.trans h.bounded

/-- Where the count cannot saturate, what is retained is what is counted. -/
theorem Within.retained_le {limit : ℕ} {p : SseFrameParser} (h : Within limit p)
    (hlimit : limit < u64Max) : retained p ≤ limit := by
  have hle := h.bufferedBytes_le
  rw [bufferedBytes_eq] at hle
  omega

/-- Two ways of cutting a stream fail alike or find its frames and end alike, and no call that
succeeds after others that have leaves more than the limit behind. -/
theorem framing_chunk_independent (limit : ℕ) (bytes : Bytes) (chunks chunks' : List Bytes)
    (hchunks : chunks.flatten = bytes) (hchunks' : chunks'.flatten = bytes) :
    firstError (.new limit) chunks = firstError (.new limit) chunks' ∧
    (firstError (.new limit) chunks = none →
      (calls (.new limit) chunks).flatMap callFrames = framesOf bytes ∧
      (lastParser (.new limit) chunks).hasIncompleteFrame =
        (lastParser (.new limit) chunks').hasIncompleteFrame) ∧
    ∀ before call after, calls (.new limit) chunks = before ++ call :: after →
      (∀ c ∈ before, errorOf c = none) → errorOf call = none →
        call.2.bufferedBytes ≤ limit ∧ (limit < u64Max → retained call.2 ≤ limit) := by
  have hrun := feed_eq_run (counted_new limit) chunks
  have hrun' := feed_eq_run (counted_new limit) chunks'
  rw [hchunks] at hrun
  rw [hchunks'] at hrun'
  refine ⟨?_, fun hnone => ?_, fun before call after heq hbefore hcall => ?_⟩
  · rw [firstError_eq, firstError_eq, hrun, hrun']
  · rw [firstError_eq, hrun] at hnone
    rcases hbytes : run takeByte (.new limit) bytes with e | ⟨frames, p⟩
    · rw [hbytes] at hnone
      cases hnone
    · obtain ⟨hframes, hlast⟩ := calls_of_run (hrun.trans hbytes)
      obtain ⟨-, hlast'⟩ := calls_of_run (hrun'.trans hbytes)
      refine ⟨hframes.trans (run_framesOf hbytes), ?_⟩
      rw [hlast, hlast']
  · have hwithin := within_calls (within_new limit) heq hbefore hcall
    exact ⟨hwithin.bufferedBytes_le, hwithin.retained_le⟩

theorem framing_chunk_independent_cut_return :
    (calls (.new 64) [ascii "data: a\r", [], ascii "\n\r\n"]).flatMap callFrames =
      framesOf (ascii "data: a\r\n\r\n") :=
  ((framing_chunk_independent 64 (ascii "data: a\r\n\r\n")
    [ascii "data: a\r", [], ascii "\n\r\n"] [ascii "data: a\r\n\r\n"] (by decide)
    (by decide)).2.1 (by decide +kernel)).1

/-- A call without bytes succeeds whatever the parser has been left with. -/
theorem empty_chunk_after_overflow :
    ¬ ∀ (limit : ℕ) (chunks : List Bytes), ∀ call ∈ calls (.new limit) chunks,
      errorOf call = none → call.2.bufferedBytes ≤ limit := by
  intro h
  have hcalls := h 3 [ascii "abcd", []]
  have hover : (calls (.new 3) [ascii "abcd", []]).any (fun call =>
    errorOf call = none && decide (3 < call.2.bufferedBytes)) = true := by decide +kernel
  obtain ⟨call, hmem, hcall⟩ := any_eq_true.mp hover
  simp only [Bool.and_eq_true, decide_eq_true_eq] at hcall
  exact absurd (hcalls call hmem hcall.1) (Nat.not_le.mpr hcall.2)

end Chunkings

end SseFraming
