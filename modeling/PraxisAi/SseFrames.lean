import PraxisAi.SaturatingArithmetic

/-! # Reassembly of server-sent event frames

The parser of the proxy's byte stream, chunk by chunk: a byte order mark may open the stream,
lines end at LF, CR or CR LF, a blank line completes a frame if it saw a data field. An error
keeps what the parser had already taken in. -/
namespace SseFrames

open SaturatingArithmetic

abbrev Bytes := List UInt8

def ascii (s : String) : Bytes := s.toUTF8.data.toList

section LossyText

/-- A multi-byte character under way: the bytes still missing, the code point so far and the
range the next byte must fall in. -/
structure Partial where
  missing : ℕ
  point : ℕ
  low : UInt8
  high : UInt8
  deriving DecidableEq

def leadByte (b : UInt8) : Option Partial :=
  if 0xC2 ≤ b ∧ b ≤ 0xDF then some ⟨1, b.toNat - 0xC0, 0x80, 0xBF⟩
  else if b = 0xE0 then some ⟨2, 0, 0xA0, 0xBF⟩
  else if b = 0xED then some ⟨2, 0xD, 0x80, 0x9F⟩
  else if 0xE1 ≤ b ∧ b ≤ 0xEF then some ⟨2, b.toNat - 0xE0, 0x80, 0xBF⟩
  else if b = 0xF0 then some ⟨3, 0, 0x90, 0xBF⟩
  else if 0xF1 ≤ b ∧ b ≤ 0xF3 then some ⟨3, b.toNat - 0xF0, 0x80, 0xBF⟩
  else if b = 0xF4 then some ⟨3, 4, 0x80, 0x8F⟩
  else none

def replacement : Char := Char.ofNat 0xFFFD

def startChar (b : UInt8) : List Char × Option Partial :=
  if b < 0x80 then ([Char.ofNat b.toNat], none)
  else match leadByte b with
    | some p => ([], some p)
    | none => ([replacement], none)

/-- A byte that does not continue the character ends it as a replacement and starts anew. -/
def lossyByte (state : Option Partial) (b : UInt8) : List Char × Option Partial :=
  match state with
  | none => startChar b
  | some p =>
    if p.low ≤ b ∧ b ≤ p.high then
      let point := p.point * 64 + (b.toNat - 0x80)
      if p.missing = 1 then ([Char.ofNat point], none)
      else ([], some ⟨p.missing - 1, point, 0x80, 0xBF⟩)
    else
      let (chars, next) := startChar b
      (replacement :: chars, next)

def lossyChars : Option Partial → Bytes → List Char
  | none, [] => []
  | some _, [] => [replacement]
  | state, b :: rest => (lossyByte state b).1 ++ lossyChars (lossyByte state b).2 rest

def fromUtf8Lossy (bytes : Bytes) : String := String.ofList (lossyChars none bytes)

end LossyText

inductive StreamStart where
  | checkingBom (matched : ℕ)
  | past
  deriving DecidableEq

structure SseFrame where
  eventType : Option String
  data : Bytes
  deriving DecidableEq

structure SseFrameParser where
  streamStart : StreamStart
  lineBuf : Bytes
  eventType : Option String
  dataBuf : Bytes
  hasData : Bool
  prevCr : Bool
  scratchBytes : ℕ
  maxBufferBytes : ℕ
  deriving DecidableEq

inductive SseParseError where
  | bufferOverflow (bufferedBytes limit : ℕ)
  | eventLimitExceeded (count limit : ℕ)
  deriving DecidableEq

def utf8Bom : Bytes := [0xEF, 0xBB, 0xBF]

def lf : UInt8 := 10

def cr : UInt8 := 13

def colon : UInt8 := 58

def space : UInt8 := 32

namespace SseFrameParser

def new (maxBufferBytes : ℕ) : SseFrameParser where
  streamStart := .checkingBom 0
  lineBuf := []
  eventType := none
  dataBuf := []
  hasData := false
  prevCr := false
  scratchBytes := 0
  maxBufferBytes

variable (p : SseFrameParser)

def bomPrefixLen : ℕ :=
  match p.streamStart with
  | .checkingBom matched => matched
  | .past => 0

def bufferedBytes : ℕ :=
  satAdd u64Max
    (satAdd u64Max (satAdd u64Max p.bomPrefixLen p.lineBuf.length) p.dataBuf.length)
    (p.eventType.elim 0 String.utf8ByteSize)

def recount : SseFrameParser := { p with scratchBytes := p.bufferedBytes }

def checkBufferLimit : Except SseParseError Unit :=
  if p.scratchBytes > p.maxBufferBytes then
    .error (.bufferOverflow p.scratchBytes p.maxBufferBytes)
  else .ok ()

def hasIncompleteFrame : Bool :=
  p.bomPrefixLen != 0 || !p.lineBuf.isEmpty || p.hasData || p.eventType.isSome

/-- The byte continues a byte order mark at the start of the stream. -/
def matchBom (b : UInt8) : Option SseFrameParser :=
  match p.streamStart with
  | .past => none
  | .checkingBom matched =>
    if utf8Bom[matched]? = some b then
      some { p with
        streamStart :=
          if matched + 1 = utf8Bom.length then .past else .checkingBom (matched + 1) }
    else none

def leaveStart : SseFrameParser :=
  match p.streamStart with
  | .past => p
  | .checkingBom matched =>
    { p with streamStart := .past, lineBuf := p.lineBuf ++ utf8Bom.take matched }.recount

def completeFrame : Option SseFrame × SseFrameParser :=
  if p.hasData then
    (some ⟨p.eventType, p.dataBuf⟩,
      { p with hasData := false, eventType := none, dataBuf := [] })
  else (none, { p with eventType := none })

def fieldValue (colonPos : ℕ) : Bytes :=
  if p.lineBuf[colonPos + 1]? = some space then p.lineBuf.drop (colonPos + 2)
  else p.lineBuf.drop (colonPos + 1)

def takeField (field value : Bytes) : SseFrameParser :=
  if field = ascii "data" then
    { p with
      hasData := true
      dataBuf := (if p.hasData then p.dataBuf ++ [lf] else p.dataBuf) ++ value }
  else if field = ascii "event" then { p with eventType := some (fromUtf8Lossy value) }
  else p

def processLine : Option SseFrame × SseFrameParser :=
  if p.lineBuf.isEmpty then p.completeFrame
  else if p.lineBuf.head? = some colon then (none, p)
  else match p.lineBuf.findIdx? (· == colon) with
    | none => (none, p)
    | some colonPos => (none, p.takeField (p.lineBuf.take colonPos) (p.fieldValue colonPos))

end SseFrameParser

def checkEventLimit (eventLimit : Option (ℕ × ℕ)) (parsedInChunk : ℕ) :
    Except SseParseError Unit :=
  match eventLimit with
  | none => .ok ()
  | some (currentEvents, maxEvents) =>
    let count := satAdd u64Max (satAdd u64Max currentEvents parsedInChunk) 1
    if count > maxEvents then .error (.eventLimitExceeded count maxEvents) else .ok ()

section Chunks

variable (eventLimit : Option (ℕ × ℕ)) (countFrame : SseFrame → Bool)

/-- A completed frame may count against the budget. -/
def countCompleted (counted : ℕ) : Option SseFrame → Except SseParseError ℕ
  | none => .ok counted
  | some frame =>
    if countFrame frame then
      match checkEventLimit eventLimit counted with
      | .error e => .error e
      | .ok () => .ok (satAdd u64Max counted 1)
    else .ok counted

/-- The loop over the bytes of a chunk; `counted` frames of it counted so far. -/
def parseBytes : Bytes → SseFrameParser → ℕ → List SseFrame →
    Except SseParseError (List SseFrame) × SseFrameParser
  | [], p, _, frames => (.ok frames, p.recount)
  | b :: rest, p, counted, frames =>
    match p.matchBom b with
    | some p =>
      match p.recount.checkBufferLimit with
      | .error e => (.error e, p.recount)
      | .ok () => parseBytes rest p.recount counted frames
    | none =>
      let p := p.leaveStart
      if b = lf ∨ b = cr then
        let (frame, p) := p.processLine
        match countCompleted eventLimit countFrame counted frame with
        | .error e => (.error e, p)
        | .ok counted =>
          let frames := frames ++ frame.toList
          let p := { p with lineBuf := [] }.recount
          let p := if b = cr ∧ rest = [] then { p with prevCr := true } else p
          match p.checkBufferLimit with
          | .error e => (.error e, p)
          | .ok () =>
            match rest with
            | [] => parseBytes [] p counted frames
            | next :: rest' =>
              if b = cr ∧ next = lf then parseBytes rest' p counted frames
              else parseBytes (next :: rest') p counted frames
      else
        let p := { p with
          lineBuf := p.lineBuf ++ [b]
          scratchBytes := satAdd u64Max p.scratchBytes 1 }
        match p.checkBufferLimit with
        | .error e => (.error e, p)
        | .ok () => parseBytes rest p counted frames

def parseChunkInner (p : SseFrameParser) (chunk : Bytes) :
    Except SseParseError (List SseFrame) × SseFrameParser :=
  if chunk.isEmpty then (.ok [], p.recount)
  else
    let bytes := if p.prevCr ∧ chunk.head? = some lf then chunk.tail else chunk
    parseBytes eventLimit countFrame bytes { p with prevCr := false } 0 []

end Chunks

def parseChunk (p : SseFrameParser) (chunk : Bytes) :
    Except SseParseError (List SseFrame) × SseFrameParser :=
  parseChunkInner none (fun _ => true) p chunk

end SseFrames
