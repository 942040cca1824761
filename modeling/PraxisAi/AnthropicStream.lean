import PraxisAi.AnthropicTranslation
import PraxisAi.BatchedFrames
import PraxisAi.Utf8Text

/-! # The body of a message stream, chunk by chunk

Bytes become text once their characters are complete, text becomes event blocks once a blank line
has come, and each block's data is a chunk for the translation or the sentinel. A carriage return
at the end of a chunk may be half of a line ending and waits for the next one. -/
namespace AnthropicStream

open SseFrames JsonValues Utf8Text BatchedFrames AnthropicTranslation DecimalText

section Hexadecimal

def encodeHexBytes (bytes : Bytes) : String :=
  String.ofList (bytes.flatMap fun b => (hexText 2 b.toNat).toList)

def hexNibble (c : Char) : Option ℕ :=
  if '0' ≤ c ∧ c ≤ '9' then some (c.toNat - '0'.toNat)
  else if 'a' ≤ c ∧ c ≤ 'f' then some (c.toNat - 'a'.toNat + 10)
  else none

/-- Pairs that are not digits are passed over. -/
def decodeHexChars : List Char → Bytes
  | hi :: lo :: rest =>
    match hexNibble hi, hexNibble lo with
    | some h, some l => UInt8.ofNat (h * 16 + l) :: decodeHexChars rest
    | _, _ => decodeHexChars rest
  | _ => []

def decodeHexBytes (hex : String) : Bytes := decodeHexChars hex.toList

theorem decodeHexChars_byte (b : UInt8) (rest : List Char) :
    decodeHexChars ((hexText 2 b.toNat).toList ++ rest) = b :: decodeHexChars rest := by
  have hdigits : ∀ n : Fin 256,
      (hexText 2 n.val).toList = [Nat.digitChar (n.val / 16), Nat.digitChar (n.val % 16)] ∧
      hexNibble (Nat.digitChar (n.val / 16)) = some (n.val / 16) ∧
      hexNibble (Nat.digitChar (n.val % 16)) = some (n.val % 16) := by decide +kernel
  obtain ⟨htext, hhi, hlo⟩ := hdigits ⟨b.toNat, b.toNat_lt⟩
  have hbyte : UInt8.ofNat (b.toNat / 16 * 16 + b.toNat % 16) = b := by
    rw [Nat.div_add_mod']
    exact UInt8.ofNat_toNat
  rw [htext, List.cons_append, List.cons_append, List.nil_append, decodeHexChars, hhi, hlo]
  exact congrArg (· :: decodeHexChars rest) hbyte

theorem decodeHexBytes_encodeHexBytes (bytes : Bytes) :
    decodeHexBytes (encodeHexBytes bytes) = bytes := by
  rw [decodeHexBytes, encodeHexBytes, String.toList_ofList]
  induction bytes with
  | nil => rfl
  | cons b rest ih => rw [List.flatMap_cons, decodeHexChars_byte, ih]

end Hexadecimal

section Lines

/-- Both replacements of the source: pairs first, then the carriage returns that are left. -/
def replaceCrLf : Bytes → Bytes
  | [] => []
  | [b] => [b]
  | a :: b :: rest =>
    if a = cr ∧ b = lf then lf :: replaceCrLf rest else a :: replaceCrLf (b :: rest)

def normalizeLineEndings (text : Bytes) : Bytes :=
  (replaceCrLf text).map fun b => if b = cr then lf else b

def splitDeferredTrailingCr (combined : Bytes) (endOfStream : Bool) : Bytes × Bool :=
  if !endOfStream ∧ combined.getLast? = some cr ∧
      combined.dropLast.getLast? ≠ some cr then
    (combined.dropLast, true)
  else (combined, false)

def splitBlock : Bytes → Option (Bytes × Bytes)
  | [] => none
  | [_] => none
  | a :: b :: rest =>
    if a = lf ∧ b = lf then some ([], rest)
    else (splitBlock (b :: rest)).map fun (block, after) => (a :: block, after)

def readBlock (text : Bytes) : Reading UInt8 Bytes Empty :=
  match splitBlock text with
  | none => .waiting
  | some (block, rest) => .frame block rest

def completeBlocks (text : Bytes) : List Bytes × Bytes :=
  match drain readBlock text with
  | (blocks, .waiting rest) => (blocks, rest)
  | (_, .bad e _) => e.elim

def stripTrailingCr (line : Bytes) : Bytes :=
  if line.getLast? = some cr then line.dropLast else line

def linesFrom (current : Bytes) : Bytes → List Bytes
  | [] => if current.isEmpty then [] else [current]
  | b :: rest =>
    if b = lf then stripTrailingCr current :: linesFrom [] rest
    else linesFrom (current ++ [b]) rest

def dataField (line : Bytes) : Option Bytes :=
  if line = ascii "data" then some []
  else (line.dropPrefix? (ascii "data:")).map fun value =>
    (value.dropPrefix? [space]).getD value

def eventData (block : Bytes) : Option Bytes :=
  match (linesFrom [] block).filterMap dataField with
  | [] => none
  | first :: more => some (first ++ more.flatMap (lf :: ·))

end Lines

section Chunks

structure Metadata where
  armed : Bool
  lineBuffer : Option Bytes
  utf8Buffer : Option String
  stream : StreamMetadata

def Metadata.fresh : Metadata := ⟨true, none, none, .fresh⟩

variable (c : Config) (fromStr : Bytes → Except String Json) (id : ℕ)

def transformDataEvent (data : Bytes) (m : StreamMetadata) : Outcome :=
  match fromStr data with
  | .error error => .error (.invalidJson error)
  | .ok chunk =>
    if chunk.asObj.isSome then transformChunk c id chunk m else .error .notAnObject

def openaiDoneSentinel : Bytes := ascii "[DONE]"

def processData (data : Bytes) (m : StreamMetadata) : Outcome :=
  if data = openaiDoneSentinel then emitDone id m else transformDataEvent c fromStr id data m

def processEventBlock (block : Bytes) (m : StreamMetadata) : Outcome :=
  match eventData block with
  | none => .ok ([], m)
  | some data => processData c fromStr id data m

def processBlocks : List Bytes → StreamMetadata → Outcome
  | [], m => .ok ([], m)
  | block :: rest, m =>
    ChunkedRuns.resume (processEventBlock c fromStr id block m) fun m' =>
      if m'.isStreamFailed then .ok ([], m') else processBlocks rest m'

abbrev CallOutcome := Except Failure (List StreamEvent × Metadata)

def storeLineBuffer (buffer : Bytes) (m : Metadata) : Except Failure Metadata :=
  if buffer.isEmpty then .ok { m with lineBuffer := none }
  else if buffer.length > c.maxPartialEventBytes then
    .error (.partialEventTooLarge c.maxPartialEventBytes)
  else .ok { m with lineBuffer := some buffer }

/-- A stream that has failed gives up the text it had put aside. -/
def Metadata.after (m : Metadata) (stream : StreamMetadata) : Metadata :=
  if stream.isStreamFailed then ⟨m.armed, none, none, stream⟩ else { m with stream }

def processSseChunk (text : Bytes) (endOfStream : Bool) (m : Metadata) : CallOutcome :=
  let combined := m.lineBuffer.getD [] ++ text
  let (toNormalize, pendingCr) := splitDeferredTrailingCr combined endOfStream
  let (blocks, rest) := completeBlocks (normalizeLineEndings toNormalize)
  match processBlocks c fromStr id blocks m.stream with
  | .error e => .error e
  | .ok (events, stream) =>
    let remaining := if stream.isStreamFailed then [] else rest
    let toBuffer := if pendingCr then remaining ++ [cr] else remaining
    (storeLineBuffer c toBuffer (m.after stream)).map fun m' => (events, m')

def validUtf8Prefix (combined : Bytes) (endOfStream : Bool) (m : Metadata) :
    Option (Bytes × Metadata) :=
  match splitUtf8 combined with
  | none => none
  | some (valid, []) => some (valid, m)
  | some (valid, tail) =>
    if endOfStream ∨ tail.length > 3 then none
    else some (valid, { m with utf8Buffer := some (encodeHexBytes tail) })

def combinePendingUtf8 (bytes : Bytes) (m : Metadata) : Bytes × Metadata :=
  match m.utf8Buffer with
  | some hex => (decodeHexBytes hex ++ bytes, { m with utf8Buffer := none })
  | none => (bytes, m)

def decodeAndProcessChunk (bytes : Bytes) (endOfStream : Bool) (m : Metadata) : CallOutcome :=
  let (combined, m) := combinePendingUtf8 bytes m
  match validUtf8Prefix combined endOfStream m with
  | none => .error .malformedUtf8
  | some (valid, m) =>
    if !isUtf8 valid then .ok ([], m)
    else if valid.isEmpty ∧ !endOfStream then .ok ([], m)
    else processSseChunk c fromStr id valid endOfStream m

/-- The body hook of the filter; a body that it does not touch sends no events. -/
def onResponseBody (body : Option Bytes) (endOfStream : Bool) (m : Metadata) : CallOutcome :=
  if !m.armed ∨ m.stream.isStreamFailed then .ok ([], m)
  else match body with
    | none =>
      if endOfStream then decodeAndProcessChunk c fromStr id [] true m else .ok ([], m)
    | some bytes => decodeAndProcessChunk c fromStr id bytes endOfStream m

end Chunks

section Runs

/-- A call of the body hook, with the clock that a message id would be read from. -/
structure Call where
  id : ℕ
  body : Option Bytes

def Call.bytes (call : Call) : Bytes := call.body.getD []

variable (c : Config) (fromStr : Bytes → Except String Json)

def respond : List Call → Metadata → CallOutcome
  | [], m => .ok ([], m)
  | [call], m => onResponseBody c fromStr call.id call.body true m
  | call :: rest, m =>
    ChunkedRuns.resume (onResponseBody c fromStr call.id call.body false m) (respond rest)

end Runs

end AnthropicStream
