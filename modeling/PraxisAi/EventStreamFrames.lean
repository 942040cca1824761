import PraxisAi.BatchedFrames
import PraxisAi.DecimalText
import PraxisAi.Utf8Text

/-! # Binary event stream frames

The decoder of the provider's binary stream: a prelude with two lengths and a checksum, headers, a
payload and a checksum over everything before it. Bytes are buffered until a whole frame is there;
a frame that is too short, too long or damaged is an error and its bytes are given up. -/
namespace EventStreamFrames

open List
open SseFrames Utf8Text BatchedFrames DecimalText

section Checksum

def crcShift (c : UInt32) : UInt32 :=
  if c &&& 1 = 1 then (c >>> 1) ^^^ 0xEDB88320 else c >>> 1

def crcByte (c : UInt32) (b : UInt8) : UInt32 :=
  crcShift (crcShift (crcShift (crcShift (crcShift (crcShift (crcShift (crcShift
    (c ^^^ b.toUInt32))))))))

/-- CRC-32 as archives and Ethernet use it. -/
def crc32 (bytes : Bytes) : ℕ := ((bytes.foldl crcByte 0xFFFFFFFF) ^^^ 0xFFFFFFFF).toNat

example : crc32 (ascii "123456789") = 0xCBF43926 := by decide +kernel

end Checksum

section Errors

inductive DecodeError where
  | frameTooShort (totalLen : ℕ)
  | frameTooLarge (totalLen maxFrameLen : ℕ)
  | preludeCrcMismatch (stored computed : ℕ)
  | messageCrcMismatch (stored computed : ℕ)
  | headersExceedFrame (headersLen totalLen : ℕ)
  | truncatedHeader
  | invalidUtf8InHeader
  | unknownHeaderType (code : UInt8)
  deriving DecidableEq

def preludeLen : ℕ := 12

def messageCrcLen : ℕ := 4

def minFrameLen : ℕ := preludeLen + messageCrcLen

def DecodeError.text : DecodeError → String
  | .frameTooShort totalLen =>
    "frame total_length " ++ totalLen.repr ++ " is below minimum (" ++ minFrameLen.repr ++ ")"
  | .frameTooLarge totalLen maxFrameLen =>
    "frame total_length " ++ totalLen.repr ++ " exceeds configured maximum " ++ maxFrameLen.repr
  | .preludeCrcMismatch stored computed =>
    "prelude CRC-32 mismatch: stored 0x" ++ hexText 8 stored ++ ", computed 0x" ++
      hexText 8 computed
  | .messageCrcMismatch stored computed =>
    "message CRC-32 mismatch: stored 0x" ++ hexText 8 stored ++ ", computed 0x" ++
      hexText 8 computed
  | .headersExceedFrame headersLen totalLen =>
    "headers_length " ++ headersLen.repr ++ " overflows frame total_length " ++ totalLen.repr
  | .truncatedHeader => "header block truncated"
  | .invalidUtf8InHeader => "invalid UTF-8 in header"
  | .unknownHeaderType code => "unknown header value type: 0x" ++ hexText 2 code.toNat

end Errors

section Headers

inductive HeaderValue where
  | string (value : String)
  | other
  deriving DecidableEq

structure EventStreamHeader where
  name : String
  value : HeaderValue
  deriving DecidableEq

def beValue (bytes : Bytes) : ℕ := bytes.foldl (fun n b => n * 256 + b.toNat) 0

def skip (data : Bytes) (n : ℕ) : Except DecodeError Bytes :=
  if data.length < n then .error .truncatedHeader else .ok (data.drop n)

def readU16PrefixLen (data : Bytes) : Except DecodeError (ℕ × Bytes) :=
  if data.length < 2 then .error .truncatedHeader
  else .ok (beValue (data.take 2), data.drop 2)

def readLengthPrefixedString (data : Bytes) : Except DecodeError (String × Bytes) :=
  match readU16PrefixLen data with
  | .error e => .error e
  | .ok (len, rest) =>
    if rest.length < len then .error .truncatedHeader
    else match fromUtf8 (rest.take len) with
      | none => .error .invalidUtf8InHeader
      | some s => .ok (s, rest.drop len)

def skipped (data : Bytes) (n : ℕ) : Except DecodeError (HeaderValue × Bytes) :=
  (skip data n).map fun rest => (.other, rest)

def decodeHeaderValue (valueType : UInt8) (data : Bytes) :
    Except DecodeError (HeaderValue × Bytes) :=
  if valueType = 7 then (readLengthPrefixedString data).map fun (s, rest) => (.string s, rest)
  else if valueType = 6 then
    match readU16PrefixLen data with
    | .error e => .error e
    | .ok (len, rest) => skipped rest len
  else if valueType = 0 ∨ valueType = 1 then .ok (.other, data)
  else if valueType = 2 then skipped data 1
  else if valueType = 3 then skipped data 2
  else if valueType = 4 then skipped data 4
  else if valueType = 5 ∨ valueType = 8 then skipped data 8
  else if valueType = 9 then skipped data 16
  else .error (.unknownHeaderType valueType)

def decodeHeader (data : Bytes) : Reading UInt8 EventStreamHeader DecodeError :=
  match data with
  | [] => .waiting
  | nameLen :: data =>
    if data.length < nameLen.toNat then .bad .truncatedHeader data
    else match fromUtf8 (data.take nameLen.toNat) with
      | none => .bad .invalidUtf8InHeader data
      | some name =>
        match data.drop nameLen.toNat with
        | [] => .bad .truncatedHeader []
        | valueType :: data =>
          match decodeHeaderValue valueType data with
          | .error e => .bad e data
          | .ok (value, rest) => .frame ⟨name, value⟩ rest

def decodeHeaders (data : Bytes) : Except DecodeError (List EventStreamHeader) :=
  match drain decodeHeader data with
  | (headers, .waiting _) => .ok headers
  | (_, .bad e _) => .error e

end Headers

section Messages

structure EventStreamMessage where
  headers : List EventStreamHeader
  payload : Bytes
  deriving DecidableEq

namespace EventStreamMessage

def headerStr (msg : EventStreamMessage) (name : String) : Option String :=
  msg.headers.findSome? fun h =>
    if h.name = name then
      match h.value with
      | .string s => some s
      | .other => none
    else none

def eventType (msg : EventStreamMessage) : Option String := msg.headerStr ":event-type"

def messageType (msg : EventStreamMessage) : Option String := msg.headerStr ":message-type"

def isException (msg : EventStreamMessage) : Bool := msg.messageType == some "exception"

end EventStreamMessage

end Messages

section Decoder

structure EventStreamDecoder where
  buf : Bytes
  maxFrameLen : ℕ
  deriving DecidableEq

def u32At (bytes : Bytes) (i : ℕ) : ℕ := beValue ((bytes.drop i).take 4)

def decodeFrame (frame : Bytes) (totalLen headersLen : ℕ) :
    Except DecodeError EventStreamMessage :=
  let preludeStored := u32At frame 8
  let preludeComputed := crc32 (frame.take 8)
  if preludeComputed ≠ preludeStored then
    .error (.preludeCrcMismatch preludeStored preludeComputed)
  else
    let stored := u32At frame (totalLen - 4)
    let computed := crc32 (frame.take (totalLen - messageCrcLen))
    if computed ≠ stored then .error (.messageCrcMismatch stored computed)
    else
      let headersEnd := preludeLen + headersLen
      if headersEnd > totalLen - messageCrcLen then
        .error (.headersExceedFrame headersLen totalLen)
      else
        match decodeHeaders ((frame.take headersEnd).drop preludeLen) with
        | .error e => .error e
        | .ok headers => .ok ⟨headers, (frame.take (totalLen - messageCrcLen)).drop headersEnd⟩

namespace EventStreamDecoder

def withMaxFrameLen (maxFrameLen : ℕ) : EventStreamDecoder := ⟨[], maxFrameLen⟩

variable (d : EventStreamDecoder)

def isEmpty : Bool := d.buf.isEmpty

def push (data : Bytes) : EventStreamDecoder := { d with buf := d.buf ++ data }

/-- The next frame, nothing yet, or an error; with what stays in the buffer. -/
def decode : Except DecodeError (Option EventStreamMessage) × EventStreamDecoder :=
  if d.buf.length < preludeLen then (.ok none, d)
  else
    let totalLen := u32At d.buf 0
    let headersLen := u32At d.buf 4
    if totalLen < minFrameLen then
      (.error (.frameTooShort totalLen), { d with buf := d.buf.drop preludeLen })
    else if totalLen > d.maxFrameLen then
      (.error (.frameTooLarge totalLen d.maxFrameLen), { d with buf := [] })
    else if d.buf.length < totalLen then (.ok none, d)
    else
      ((decodeFrame (d.buf.take totalLen) totalLen headersLen).map some,
        { d with buf := d.buf.drop totalLen })

/-- The loop over `decode`, with a bound on the number of frames. -/
def decodeWithin : ℕ → EventStreamDecoder →
    Except DecodeError (List EventStreamMessage) × EventStreamDecoder
  | 0, d => (.ok [], d)
  | fuel + 1, d =>
    match d.decode with
    | (.error e, d') => (.error e, d')
    | (.ok none, d') => (.ok [], d')
    | (.ok (some msg), d') =>
      let (rest, d'') := decodeWithin fuel d'
      (rest.map (msg :: ·), d'')

/-- Every frame takes bytes off the buffer, so its length bounds the loop. -/
def decodeAll : Except DecodeError (List EventStreamMessage) × EventStreamDecoder :=
  decodeWithin (d.buf.length + 1) d

end EventStreamDecoder

end Decoder

section Reader

def readFrame (maxFrameLen : ℕ) (buf : Bytes) : Reading UInt8 EventStreamMessage DecodeError :=
  match (EventStreamDecoder.mk buf maxFrameLen).decode with
  | (.error e, d) => .bad e d.buf
  | (.ok none, _) => .waiting
  | (.ok (some msg), d) => .frame msg d.buf

variable {maxFrameLen : ℕ} {buf : Bytes}

theorem u32At_append {bytes : Bytes} {i : ℕ} (h : i + 4 ≤ bytes.length) (x : Bytes) :
    u32At (bytes ++ x) i = u32At bytes i := by
  have hlen : 4 ≤ (bytes.drop i).length := by
    rw [length_drop]
    omega
  rw [u32At, u32At, drop_append_of_le_length (by omega), take_append_of_le_length hlen]

structure Whole (maxFrameLen : ℕ) (buf : Bytes) : Prop where
  prelude : preludeLen ≤ buf.length
  long : minFrameLen ≤ u32At buf 0
  fits : u32At buf 0 ≤ maxFrameLen
  whole : u32At buf 0 ≤ buf.length

theorem readFrame_whole (h : Whole maxFrameLen buf) :
    readFrame maxFrameLen buf =
      match decodeFrame (buf.take (u32At buf 0)) (u32At buf 0) (u32At buf 4) with
      | .error e => .bad e (buf.drop (u32At buf 0))
      | .ok msg => .frame msg (buf.drop (u32At buf 0)) := by
  rw [readFrame, EventStreamDecoder.decode, if_neg (Nat.not_lt.mpr h.prelude)]
  dsimp only
  rw [if_neg (Nat.not_lt.mpr h.long), if_neg (Nat.not_lt.mpr h.fits),
    if_neg (Nat.not_lt.mpr h.whole)]
  cases decodeFrame (buf.take (u32At buf 0)) (u32At buf 0) (u32At buf 4) <;> rfl

theorem readFrame_short (hprelude : preludeLen ≤ buf.length) (hshort : u32At buf 0 < minFrameLen) :
    readFrame maxFrameLen buf = .bad (.frameTooShort (u32At buf 0)) (buf.drop preludeLen) := by
  rw [readFrame, EventStreamDecoder.decode, if_neg (Nat.not_lt.mpr hprelude)]
  dsimp only
  rw [if_pos hshort]

theorem readFrame_large (hprelude : preludeLen ≤ buf.length) (hlong : minFrameLen ≤ u32At buf 0)
    (hlarge : maxFrameLen < u32At buf 0) :
    readFrame maxFrameLen buf = .bad (.frameTooLarge (u32At buf 0) maxFrameLen) [] := by
  rw [readFrame, EventStreamDecoder.decode, if_neg (Nat.not_lt.mpr hprelude)]
  dsimp only
  rw [if_neg (Nat.not_lt.mpr hlong), if_pos hlarge]

/-- Everything the reader can answer, with its guards. -/
theorem readFrame_cases (maxFrameLen : ℕ) (buf : Bytes) :
    readFrame maxFrameLen buf = .waiting ∨
    (preludeLen ≤ buf.length ∧ u32At buf 0 < minFrameLen) ∨
    (preludeLen ≤ buf.length ∧ minFrameLen ≤ u32At buf 0 ∧ maxFrameLen < u32At buf 0) ∨
    Whole maxFrameLen buf := by
  by_cases hprelude : buf.length < preludeLen
  · left
    rw [readFrame, EventStreamDecoder.decode, if_pos hprelude]
  by_cases hshort : u32At buf 0 < minFrameLen
  · exact .inr (.inl ⟨Nat.not_lt.mp hprelude, hshort⟩)
  by_cases hlarge : u32At buf 0 > maxFrameLen
  · exact .inr (.inr (.inl ⟨Nat.not_lt.mp hprelude, Nat.not_lt.mp hshort, hlarge⟩))
  by_cases hpart : buf.length < u32At buf 0
  · left
    rw [readFrame, EventStreamDecoder.decode, if_neg hprelude]
    dsimp only
    rw [if_neg hshort, if_neg hlarge, if_pos hpart]
  · exact .inr (.inr (.inr ⟨Nat.not_lt.mp hprelude, Nat.not_lt.mp hshort, Nat.not_lt.mp hlarge,
      Nat.not_lt.mp hpart⟩))

theorem Whole.append (h : Whole maxFrameLen buf) (x : Bytes) : Whole maxFrameLen (buf ++ x) := by
  have hprelude := h.prelude
  have hlen : (buf ++ x).length = buf.length + x.length := length_append
  have heq : u32At (buf ++ x) 0 = u32At buf 0 :=
    u32At_append (by rw [preludeLen] at hprelude; omega) x
  exact ⟨by omega, heq ▸ h.long, heq ▸ h.fits, by have := h.whole; omega⟩

/-- A whole frame reads the same whatever follows it. -/
theorem readFrame_append (h : Whole maxFrameLen buf) (x : Bytes) :
    readFrame maxFrameLen (buf ++ x) =
      match decodeFrame (buf.take (u32At buf 0)) (u32At buf 0) (u32At buf 4) with
      | .error e => .bad e (buf.drop (u32At buf 0) ++ x)
      | .ok msg => .frame msg (buf.drop (u32At buf 0) ++ x) := by
  have hprelude := h.prelude
  rw [preludeLen] at hprelude
  rw [readFrame_whole (h.append x), u32At_append (by omega), u32At_append (by omega),
    take_append_of_le_length h.whole, drop_append_of_le_length h.whole]

theorem Whole.take (h : Whole maxFrameLen buf) :
    Whole maxFrameLen (buf.take (u32At buf 0)) ∧
      u32At (buf.take (u32At buf 0)) 0 = u32At buf 0 ∧
      u32At (buf.take (u32At buf 0)) 4 = u32At buf 4 := by
  have hlong := h.long
  have hwhole := h.whole
  have hlen : (buf.take (u32At buf 0)).length = u32At buf 0 := by
    rw [length_take]
    omega
  have hsplit : buf.take (u32At buf 0) ++ buf.drop (u32At buf 0) = buf :=
    take_append_drop _ _
  have hfield : ∀ i, i + 4 ≤ 12 → u32At (buf.take (u32At buf 0)) i = u32At buf i := by
    intro i hi
    rw [minFrameLen, preludeLen] at hlong
    have happend := @u32At_append (buf.take (u32At buf 0)) i (by omega) (buf.drop (u32At buf 0))
    rw [hsplit] at happend
    exact happend.symm
  have hzero := hfield 0 (by omega)
  refine ⟨⟨?_, by rwa [hzero], by rw [hzero]; exact h.fits, by rw [hzero, hlen]⟩, hzero,
    hfield 4 (by omega)⟩
  rw [hlen]
  rw [minFrameLen] at hlong
  omega

theorem readFrame_frame {msg : EventStreamMessage} {rest : Bytes}
    (h : readFrame maxFrameLen buf = .frame msg rest) :
    Whole maxFrameLen buf ∧ rest = buf.drop (u32At buf 0) ∧
      decodeFrame (buf.take (u32At buf 0)) (u32At buf 0) (u32At buf 4) = .ok msg := by
  rcases readFrame_cases maxFrameLen buf with hw | ⟨hp, hs⟩ | ⟨hp, hl, hm⟩ | hwhole
  · rw [hw] at h
    cases h
  · rw [readFrame_short hp hs] at h
    cases h
  · rw [readFrame_large hp hl hm] at h
    cases h
  · rw [readFrame_whole hwhole] at h
    split at h
    · cases h
    · rename_i hframe
      cases h
      exact ⟨hwhole, rfl, hframe⟩

theorem readFrame_stuck {e : DecodeError} {rest : Bytes}
    (h : readFrame maxFrameLen buf = .bad e rest) (x : Bytes) :
    ∃ rest', readFrame maxFrameLen (buf ++ x) = .bad e rest' := by
  have hgrown : buf.length ≤ (buf ++ x).length := by
    rw [length_append]
    omega
  have hsame : preludeLen ≤ buf.length → u32At (buf ++ x) 0 = u32At buf 0 := by
    intro hp
    exact u32At_append (by rw [preludeLen] at hp; omega) x
  rcases readFrame_cases maxFrameLen buf with hw | ⟨hp, hs⟩ | ⟨hp, hl, hm⟩ | hwhole
  · rw [hw] at h
    cases h
  · rw [readFrame_short hp hs] at h
    cases h
    rw [← hsame hp] at hs ⊢
    exact ⟨_, readFrame_short (hp.trans hgrown) hs⟩
  · rw [readFrame_large hp hl hm] at h
    cases h
    rw [← hsame hp] at hl hm ⊢
    exact ⟨_, readFrame_large (hp.trans hgrown) hl hm⟩
  · rw [readFrame_whole hwhole] at h
    rw [readFrame_append hwhole]
    split at h
    · rename_i hframe
      cases h
      exact ⟨_, rfl⟩
    · cases h

/-- The decoder's reader: frames stand on their own bytes, failures stay failures. -/
def frameReader (maxFrameLen : ℕ) : FrameReader UInt8 EventStreamMessage DecodeError where
  read := readFrame maxFrameLen
  shrinks := by
    intro b m r h
    obtain ⟨hwhole, rfl, -⟩ := readFrame_frame h
    have hlong := hwhole.long
    have hfull := hwhole.whole
    rw [minFrameLen, preludeLen] at hlong
    rw [length_drop]
    omega
  isolated := by
    intro b m r h
    obtain ⟨hwhole, rfl, hframe⟩ := readFrame_frame h
    refine ⟨b.take (u32At b 0), (take_append_drop _ _).symm, fun x => ?_⟩
    obtain ⟨hown, hzero, hfour⟩ := hwhole.take
    rw [readFrame_append hown, hzero, hfour, take_take, Nat.min_self, hframe,
      drop_take_self, nil_append]
  stuck := readFrame_stuck

theorem frameReader_read (maxFrameLen : ℕ) :
    (frameReader maxFrameLen).read = readFrame maxFrameLen := rfl

theorem decode_eq_readFrame (d : EventStreamDecoder) :
    d.decode =
      match readFrame d.maxFrameLen d.buf with
      | .waiting => (.ok none, d)
      | .frame msg rest => (.ok (some msg), { d with buf := rest })
      | .bad e rest => (.error e, { d with buf := rest }) := by
  obtain ⟨buf, maxFrameLen⟩ := d
  rw [readFrame, EventStreamDecoder.decode]
  dsimp only
  split
  · rfl
  split
  · rfl
  split
  · rfl
  split
  · rfl
  cases decodeFrame (buf.take (u32At buf 0)) (u32At buf 0) (u32At buf 4) <;> rfl

theorem decodeAll_eq_drain (d : EventStreamDecoder) :
    d.decodeAll =
      match drain (readFrame d.maxFrameLen) d.buf with
      | (msgs, .waiting rest) => (.ok msgs, { d with buf := rest })
      | (_, .bad e rest) => (.error e, { d with buf := rest }) := by
  rw [EventStreamDecoder.decodeAll, drain]
  generalize d.buf.length + 1 = fuel
  induction fuel generalizing d with
  | zero => rfl
  | succ fuel ih =>
    rw [EventStreamDecoder.decodeWithin, drainWithin, decode_eq_readFrame]
    rcases readFrame d.maxFrameLen d.buf with _ | ⟨msg, rest⟩ | ⟨e, rest⟩
    · rfl
    · dsimp only
      rw [ih]
      rcases drainWithin (readFrame d.maxFrameLen) fuel rest with ⟨msgs, stop⟩
      cases stop <;> rfl
    · rfl

end Reader

section Encoding

def beBytes : ℕ → ℕ → Bytes
  | 0, _ => []
  | width + 1, n => beBytes width (n / 256) ++ [UInt8.ofNat (n % 256)]

theorem length_beBytes (width n : ℕ) : (beBytes width n).length = width := by
  induction width generalizing n with
  | zero => rfl
  | succ width ih => rw [beBytes, length_append, ih, length_singleton]

theorem beValue_beBytes {width n : ℕ} (h : n < 256 ^ width) : beValue (beBytes width n) = n := by
  induction width generalizing n with
  | zero =>
    have hzero : n = 0 := by simpa using h
    rw [hzero]
    rfl
  | succ width ih =>
    have hhead : beValue (beBytes width (n / 256)) = n / 256 := by
      apply ih
      rw [pow_succ] at h
      exact Nat.div_lt_of_lt_mul (by rwa [Nat.mul_comm])
    have hbyte : (UInt8.ofNat (n % 256)).toNat = n % 256 := by
      rw [UInt8.toNat_ofNat']
      exact Nat.mod_mod n 256
    rw [beBytes, beValue, foldl_append, ← beValue, hhead, foldl_cons, foldl_nil, hbyte]
    omega

theorem take_drop_front {front : Bytes} {n : ℕ} (h : front.length = n) (x : Bytes) :
    (front ++ x).take n = front ∧ (front ++ x).drop n = x :=
  ⟨by rw [take_append_of_le_length h.ge, take_of_length_le h.le], by rw [← h, drop_left]⟩

theorem readU16PrefixLen_encoded {len : ℕ} (h : len ≤ 65535) (x : Bytes) :
    readU16PrefixLen (beBytes 2 len ++ x) = .ok (len, x) := by
  have htwo : (beBytes 2 len).length = 2 := length_beBytes 2 len
  obtain ⟨htake, hdrop⟩ := take_drop_front htwo x
  have hlong : ¬ (beBytes 2 len ++ x).length < 2 := by
    rw [length_append, htwo]
    omega
  rw [readU16PrefixLen, if_neg hlong, htake, hdrop, beValue_beBytes (by omega)]

theorem readLengthPrefixedString_ascii {value : String} (h : (ascii value).length ≤ 65535)
    (x : Bytes) :
    readLengthPrefixedString (beBytes 2 (ascii value).length ++ (ascii value ++ x)) =
      .ok (value, x) := by
  obtain ⟨htext, hrest⟩ := take_drop_front (rfl : (ascii value).length = _) x
  have hlong : ¬ (ascii value ++ x).length < (ascii value).length := by
    rw [length_append]
    omega
  rw [readLengthPrefixedString, readU16PrefixLen_encoded h]
  dsimp only
  rw [if_neg hlong, htext, hrest, fromUtf8_ascii]

theorem skipped_shrinks {data rest : Bytes} {n : ℕ} {value : HeaderValue}
    (h : skipped data n = .ok (value, rest)) : rest.length ≤ data.length := by
  rw [skipped, skip] at h
  split at h
  · cases h
  · cases h
    rw [length_drop]
    omega

theorem readU16PrefixLen_shrinks {data rest : Bytes} {len : ℕ}
    (h : readU16PrefixLen data = .ok (len, rest)) : rest.length ≤ data.length := by
  rw [readU16PrefixLen] at h
  split at h
  · cases h
  · cases h
    rw [length_drop]
    omega

theorem readLengthPrefixedString_shrinks {data rest : Bytes} {text : String}
    (h : readLengthPrefixedString data = .ok (text, rest)) : rest.length ≤ data.length := by
  rw [readLengthPrefixedString] at h
  split at h
  · cases h
  · rename_i len front hlen
    have hfront := readU16PrefixLen_shrinks hlen
    split at h
    · cases h
    split at h
    · cases h
    · cases h
      rw [length_drop]
      omega

theorem decodeHeaderValue_shrinks {code : UInt8} {data rest : Bytes} {value : HeaderValue}
    (h : decodeHeaderValue code data = .ok (value, rest)) : rest.length ≤ data.length := by
  rw [decodeHeaderValue] at h
  split at h
  · rcases hread : readLengthPrefixedString data with e | ⟨text, rest'⟩
    · rw [hread] at h
      cases h
    · rw [hread] at h
      cases h
      exact readLengthPrefixedString_shrinks hread
  split at h
  · split at h
    · cases h
    · rename_i hlen
      exact (skipped_shrinks h).trans (readU16PrefixLen_shrinks hlen)
  split at h
  · cases h
    exact le_rfl
  split at h
  · exact skipped_shrinks h
  split at h
  · exact skipped_shrinks h
  split at h
  · exact skipped_shrinks h
  split at h
  · exact skipped_shrinks h
  split at h
  · exact skipped_shrinks h
  · cases h

theorem decodeHeader_shrinks : Shrinks decodeHeader := by
  intro b m r h
  rcases b with _ | ⟨nameLen, data⟩
  · cases h
  rw [decodeHeader] at h
  split at h
  · cases h
  split at h
  · cases h
  split at h
  · cases h
  rename_i valueType data' hdata
  split at h
  · cases h
  · rename_i hvalue
    cases h
    have hrest := decodeHeaderValue_shrinks hvalue
    have hlen := congrArg List.length hdata
    rw [length_drop, length_cons] at hlen
    rw [length_cons]
    omega

theorem u32At_beBytes {front : Bytes} {n i : ℕ} (hi : front.length = i) (hn : n < 2 ^ 32)
    (x : Bytes) : u32At (front ++ (beBytes 4 n ++ x)) i = n := by
  rw [u32At, (take_drop_front hi _).2, (take_drop_front (length_beBytes 4 n) x).1,
    beValue_beBytes (by omega)]

theorem crc32_lt (bytes : Bytes) : crc32 bytes < 2 ^ 32 := UInt32.toNat_lt _

theorem decodeFrame_assembled {lengths headerBytes payload front : Bytes}
    {headers : List EventStreamHeader} (hlengths : lengths.length = 8)
    (hfront : front = lengths ++ (beBytes 4 (crc32 lengths) ++ (headerBytes ++ payload)))
    (hheaders : decodeHeaders headerBytes = .ok headers) :
    decodeFrame (front ++ beBytes 4 (crc32 front)) (front.length + 4) headerBytes.length =
      .ok ⟨headers, payload⟩ := by
  have hfour := length_beBytes 4 (crc32 lengths)
  have hlen : front.length = 12 + headerBytes.length + payload.length := by
    rw [hfront, length_append, length_append, length_append, hlengths, hfour]
    omega
  have hstored : u32At (front ++ beBytes 4 (crc32 front)) 8 = crc32 lengths := by
    rw [hfront, append_assoc, append_assoc]
    exact u32At_beBytes hlengths (crc32_lt _) _
  have hlengthsRead : (front ++ beBytes 4 (crc32 front)).take 8 = lengths := by
    rw [hfront, append_assoc]
    exact (take_drop_front hlengths _).1
  have hcrc : u32At (front ++ beBytes 4 (crc32 front)) (front.length + 4 - 4) = crc32 front := by
    have hend := @u32At_beBytes front (crc32 front) _ rfl (crc32_lt _) []
    rwa [append_nil] at hend
  have hbody : (front ++ beBytes 4 (crc32 front)).take (front.length + 4 - messageCrcLen) =
      front := (take_drop_front rfl _).1
  have hheaderEnd : (lengths ++ beBytes 4 (crc32 lengths) ++ headerBytes).length =
      preludeLen + headerBytes.length := by
    rw [length_append, length_append, hlengths, hfour]
    rfl
  have hsplit : front = (lengths ++ beBytes 4 (crc32 lengths) ++ headerBytes) ++ payload := by
    rw [hfront]
    simp only [append_assoc]
  have hheaderBytes : ((front ++ beBytes 4 (crc32 front)).take
      (preludeLen + headerBytes.length)).drop preludeLen = headerBytes := by
    rw [hsplit, append_assoc (_ ++ headerBytes), (take_drop_front hheaderEnd _).1]
    exact (take_drop_front (by rw [length_append, hlengths, hfour]; rfl) _).2
  have hpayload : front.drop (preludeLen + headerBytes.length) = payload := by
    rw [hsplit]
    exact (take_drop_front hheaderEnd _).2
  have hroom : ¬ preludeLen + headerBytes.length > front.length + 4 - messageCrcLen := by
    rw [hlen, preludeLen, messageCrcLen]
    omega
  rw [decodeFrame, hstored, hlengthsRead, hcrc, hbody, if_neg (not_not_intro rfl),
    if_neg (not_not_intro rfl), if_neg hroom, hheaderBytes, hheaders, hpayload]

/-- Header bytes and a payload with their lengths in front and both checksums. -/
def assembleFrame (headerBytes payload : Bytes) : Bytes :=
  let totalLen := minFrameLen + headerBytes.length + payload.length
  let lengths := beBytes 4 totalLen ++ beBytes 4 headerBytes.length
  let front := lengths ++ (beBytes 4 (crc32 lengths) ++ (headerBytes ++ payload))
  front ++ beBytes 4 (crc32 front)

/-- A frame that was assembled is read back, whatever follows it. -/
theorem readFrame_assembled {maxFrameLen : ℕ} {headerBytes payload : Bytes}
    {headers : List EventStreamHeader} (hdecoded : decodeHeaders headerBytes = .ok headers)
    (hfits : (assembleFrame headerBytes payload).length ≤ maxFrameLen)
    (hsize : (assembleFrame headerBytes payload).length < 2 ^ 32) (x : Bytes) :
    readFrame maxFrameLen (assembleFrame headerBytes payload ++ x) =
      .frame ⟨headers, payload⟩ x := by
  rw [assembleFrame] at hfits hsize ⊢
  generalize htotal : minFrameLen + headerBytes.length + payload.length = total at *
  generalize hlengths : beBytes 4 total ++ beBytes 4 headerBytes.length = lengths at *
  generalize hfront : lengths ++ (beBytes 4 (crc32 lengths) ++ (headerBytes ++ payload)) =
    front at *
  have height : lengths.length = 8 := by
    rw [← hlengths, length_append, length_beBytes, length_beBytes]
  have hfrontLen : front.length + 4 = total := by
    rw [← hfront, length_append, length_append, length_append, height,
      length_beBytes, ← htotal, minFrameLen, preludeLen, messageCrcLen]
    omega
  have hlen : (front ++ beBytes 4 (crc32 front)).length = total := by
    rw [length_append, length_beBytes, hfrontLen]
  rw [hlen] at hfits hsize
  have hopening : front = beBytes 4 total ++ (beBytes 4 headerBytes.length ++
      (beBytes 4 (crc32 lengths) ++ (headerBytes ++ payload))) := by
    rw [← hfront, ← hlengths, append_assoc]
  have htotalRead : ∀ y, u32At (front ++ y) 0 = total := by
    intro y
    rw [hopening, append_assoc]
    exact @u32At_beBytes [] total 0 rfl hsize _
  have hheadersRead : ∀ y, u32At (front ++ y) 4 = headerBytes.length := by
    intro y
    rw [hopening, append_assoc, append_assoc]
    exact u32At_beBytes (length_beBytes 4 total) (by rw [← htotal] at hsize; omega) _
  rw [append_assoc]
  have hall : (front ++ (beBytes 4 (crc32 front) ++ x)).length = total + x.length := by
    rw [← append_assoc, length_append, hlen]
  have hlong : minFrameLen ≤ total := by
    rw [← htotal, Nat.add_assoc]
    exact Nat.le_add_right _ _
  have hwhole : Whole maxFrameLen (front ++ (beBytes 4 (crc32 front) ++ x)) := by
    refine ⟨?_, by rwa [htotalRead], by rwa [htotalRead], by rw [htotalRead, hall]; omega⟩
    rw [minFrameLen] at hlong
    omega
  rw [readFrame_whole hwhole, htotalRead, hheadersRead, ← append_assoc, (take_drop_front hlen x).1,
    (take_drop_front hlen x).2, ← hfrontLen, decodeFrame_assembled height hfront.symm hdecoded]

end Encoding

end EventStreamFrames
