import PraxisAi.EventStreamFrames

/-! # Event stream messages through the wire and back

Messages as a sender writes them, with headers of every type of the format, and the decoder fed
with their bytes in arbitrary pieces. -/
namespace EventStreamRoundTrip

open List
open SseFrames Utf8Text BatchedFrames EventStreamFrames

section Encoder

inductive WireValue where
  | boolTrue
  | boolFalse
  | byte (value : UInt8)
  | short (value : UInt16)
  | int (value : UInt32)
  | long (value : UInt64)
  | bytes (value : Bytes)
  | string (value : String)
  | timestamp (value : UInt64)
  | uuid (value : BitVec 128)

namespace WireValue

def typeCode : WireValue → UInt8
  | boolTrue => 0
  | boolFalse => 1
  | byte _ => 2
  | short _ => 3
  | int _ => 4
  | long _ => 5
  | bytes _ => 6
  | string _ => 7
  | timestamp _ => 8
  | uuid _ => 9

def encode : WireValue → Bytes
  | boolTrue | boolFalse => []
  | byte value => [value]
  | short value => beBytes 2 value.toNat
  | int value => beBytes 4 value.toNat
  | long value | timestamp value => beBytes 8 value.toNat
  | bytes value => beBytes 2 value.length ++ value
  | string value => beBytes 2 (ascii value).length ++ ascii value
  | uuid value => beBytes 16 value.toNat

def Fits : WireValue → Prop
  | bytes value => value.length ≤ 65535
  | string value => (ascii value).length ≤ 65535
  | _ => True

def decoded : WireValue → HeaderValue
  | string value => .string value
  | _ => .other

end WireValue

structure WireHeader where
  name : String
  value : WireValue
  name_fits : (ascii name).length ≤ 255
  value_fits : value.Fits

namespace WireHeader

def encode (h : WireHeader) : Bytes :=
  UInt8.ofNat (ascii h.name).length :: (ascii h.name ++ h.value.typeCode :: h.value.encode)

def decoded (h : WireHeader) : EventStreamHeader := ⟨h.name, h.value.decoded⟩

end WireHeader

/-- A message whose frame has a length of four bytes. -/
structure WireMessage where
  headers : List WireHeader
  payload : Bytes
  frame_fits : (assembleFrame (headers.flatMap WireHeader.encode) payload).length < 2 ^ 32

namespace WireMessage

def encode (m : WireMessage) : Bytes :=
  assembleFrame (m.headers.flatMap WireHeader.encode) m.payload

def decoded (m : WireMessage) : EventStreamMessage := ⟨m.headers.map WireHeader.decoded, m.payload⟩

end WireMessage

end Encoder

section Headers

theorem skipped_front {front : Bytes} {n : ℕ} (h : front.length = n) (x : Bytes) :
    skipped (front ++ x) n = .ok (.other, x) := by
  have hlong : ¬ (front ++ x).length < n := by
    rw [length_append, h]
    omega
  rw [skipped, skip, if_neg hlong, (take_drop_front h x).2]
  rfl

/-- Every type's value is passed in full, whatever follows it. -/
theorem decodeHeaderValue_encode {value : WireValue} (h : value.Fits) (x : Bytes) :
    decodeHeaderValue value.typeCode (value.encode ++ x) = .ok (value.decoded, x) := by
  cases value with
  | boolTrue => rfl
  | boolFalse => rfl
  | byte value => exact skipped_front (rfl : [value].length = 1) x
  | short value => exact skipped_front (length_beBytes 2 value.toNat) x
  | int value => exact skipped_front (length_beBytes 4 value.toNat) x
  | long value => exact skipped_front (length_beBytes 8 value.toNat) x
  | timestamp value => exact skipped_front (length_beBytes 8 value.toNat) x
  | uuid value => exact skipped_front (length_beBytes 16 value.toNat) x
  | bytes value =>
    have hread := readU16PrefixLen_encoded h (value ++ x)
    rw [WireValue.encode, WireValue.typeCode, append_assoc, decodeHeaderValue,
      if_neg (by decide), if_pos rfl, hread]
    exact skipped_front rfl x
  | string value =>
    rw [WireValue.encode, WireValue.typeCode, append_assoc, decodeHeaderValue, if_pos rfl,
      readLengthPrefixedString_ascii h]
    rfl

theorem decodeHeader_encode (h : WireHeader) (x : Bytes) :
    decodeHeader (h.encode ++ x) = .frame h.decoded x := by
  have hfits := h.name_fits
  have hname : (UInt8.ofNat (ascii h.name).length).toNat = (ascii h.name).length :=
    UInt8.toNat_ofNat_of_lt' (Nat.lt_of_le_of_lt hfits (by decide))
  have hbytes : h.encode ++ x = UInt8.ofNat (ascii h.name).length :: (ascii h.name ++
      h.value.typeCode :: (h.value.encode ++ x)) := by
    simp only [WireHeader.encode, cons_append, append_assoc]
  obtain ⟨htake, hdrop⟩ := take_drop_front (rfl : (ascii h.name).length = _)
    (h.value.typeCode :: (h.value.encode ++ x))
  have hlong : ¬ (ascii h.name ++ h.value.typeCode :: (h.value.encode ++ x)).length <
      (ascii h.name).length := by
    rw [length_append]
    omega
  rw [hbytes, decodeHeader, hname, if_neg hlong, htake, hdrop, fromUtf8_ascii]
  dsimp only
  rw [decodeHeaderValue_encode h.value_fits]
  rfl

theorem decodeHeaders_encode (headers : List WireHeader) :
    decodeHeaders (headers.flatMap WireHeader.encode) = .ok (headers.map WireHeader.decoded) := by
  have hdrain : drain decodeHeader (headers.flatMap WireHeader.encode) =
      (headers.map WireHeader.decoded, .waiting []) := by
    induction headers with
    | nil => rfl
    | cons h headers ih =>
      rw [flatMap_cons, drain_cons decodeHeader_shrinks (decodeHeader_encode h _), ih, map_cons]
  rw [decodeHeaders, hdrain]

end Headers

section Stream

/-- Bytes pushed piece by piece, with every frame taken after each push. -/
def decodeChunks : EventStreamDecoder → List Bytes →
    Except DecodeError (List EventStreamMessage) × EventStreamDecoder
  | d, [] => (.ok [], d)
  | d, chunk :: chunks =>
    match (d.push chunk).decodeAll with
    | (.error e, d') => (.error e, d')
    | (.ok msgs, d') =>
      let (rest, d'') := decodeChunks d' chunks
      (rest.map (msgs ++ ·), d'')

theorem decodeChunks_eq_drainChunks (d : EventStreamDecoder) (chunks : List Bytes) :
    decodeChunks d chunks =
      match drainChunks (readFrame d.maxFrameLen) d.buf chunks with
      | (msgs, .waiting rest) => (.ok msgs, { d with buf := rest })
      | (_, .bad e rest) => (.error e, { d with buf := rest }) := by
  induction chunks generalizing d with
  | nil => rfl
  | cons chunk chunks ih =>
    rw [decodeChunks, drainChunks, decodeAll_eq_drain, EventStreamDecoder.push]
    dsimp only
    rcases drain (readFrame d.maxFrameLen) (d.buf ++ chunk) with ⟨msgs, rest | ⟨e, rest⟩⟩
    · dsimp only
      rw [ih]
      dsimp only
      rcases drainChunks (readFrame d.maxFrameLen) rest chunks with ⟨more, rest' | ⟨e, rest'⟩⟩ <;>
        rfl
    · rfl

variable {maxFrameLen : ℕ}

theorem readFrame_encode {m : WireMessage} (h : m.encode.length ≤ maxFrameLen) (x : Bytes) :
    readFrame maxFrameLen (m.encode ++ x) = .frame m.decoded x :=
  readFrame_assembled (decodeHeaders_encode m.headers) h m.frame_fits x

theorem drain_encode {messages : List WireMessage}
    (h : ∀ m ∈ messages, m.encode.length ≤ maxFrameLen) :
    drain (frameReader maxFrameLen).read (messages.flatMap WireMessage.encode) =
      (messages.map WireMessage.decoded, .waiting []) := by
  induction messages with
  | nil => rfl
  | cons m messages ih =>
    have hfirst : (frameReader maxFrameLen).read
        (m.encode ++ messages.flatMap WireMessage.encode) =
        .frame m.decoded (messages.flatMap WireMessage.encode) := by
      rw [frameReader_read]
      exact readFrame_encode (h m mem_cons_self) _
    rw [flatMap_cons, drain_frame hfirst, ih fun m' hmem => h m' (mem_cons_of_mem m hmem), map_cons]

/-- A frame of its own length whose two stored checksums are those of its bytes. -/
structure Checked (frame : Bytes) : Prop where
  long : minFrameLen ≤ frame.length
  length : u32At frame 0 = frame.length
  prelude_crc : u32At frame 8 = crc32 (frame.take 8)
  message_crc : u32At frame (frame.length - messageCrcLen) =
    crc32 (frame.take (frame.length - messageCrcLen))

theorem decodeFrame_crcs {frame : Bytes} {totalLen headersLen : ℕ} {msg : EventStreamMessage}
    (h : decodeFrame frame totalLen headersLen = .ok msg) :
    u32At frame 8 = crc32 (frame.take 8) ∧
      u32At frame (totalLen - messageCrcLen) = crc32 (frame.take (totalLen - messageCrcLen)) := by
  unfold decodeFrame at h
  by_cases hprelude : crc32 (frame.take 8) = u32At frame 8
  · dsimp only at h
    rw [if_neg (not_not_intro hprelude)] at h
    by_cases hmessage : crc32 (frame.take (totalLen - messageCrcLen)) =
        u32At frame (totalLen - 4)
    · exact ⟨hprelude.symm, hmessage.symm⟩
    · rw [if_pos hmessage] at h
      cases h
  · dsimp only at h
    rw [if_pos hprelude] at h
    cases h

theorem decode_checked {d d' : EventStreamDecoder} {msg : EventStreamMessage}
    (h : d.decode = (.ok (some msg), d')) :
    ∃ frame, Checked frame ∧ d.buf = frame ++ d'.buf ∧ frame.length ≤ d.maxFrameLen ∧
      decodeFrame frame frame.length (u32At frame 4) = .ok msg := by
  have hread : readFrame d.maxFrameLen d.buf = .frame msg d'.buf := by
    obtain ⟨buf, maxFrameLen⟩ := d
    rw [readFrame, h]
  obtain ⟨hwhole, hrest, hframe⟩ := readFrame_frame hread
  have hfull := hwhole.whole
  have hlen : (d.buf.take (u32At d.buf 0)).length = u32At d.buf 0 := by
    rw [length_take]
    omega
  obtain ⟨-, hzero, hfour⟩ := hwhole.take
  obtain ⟨hprelude, hmessage⟩ := decodeFrame_crcs hframe
  refine ⟨d.buf.take (u32At d.buf 0), ⟨?_, ?_, hprelude, ?_⟩, ?_, ?_, ?_⟩
  · rw [hlen]
    exact hwhole.long
  · rw [hzero, hlen]
  · rw [hlen]
    exact hmessage
  · rw [hrest, take_append_drop]
  · rw [hlen]
    exact hwhole.fits
  · rw [hlen, hfour]
    exact hframe

/-- Whatever the pieces, the decoder gives back the messages that were encoded, with nothing left
over; and it never returns a message whose frame fails a checksum. -/
theorem decoding_inverts_encoding (maxFrameLen : ℕ) :
    (∀ (messages : List WireMessage) (chunks : List Bytes),
      (∀ m ∈ messages, m.encode.length ≤ maxFrameLen) →
      chunks.flatten = messages.flatMap WireMessage.encode →
      decodeChunks (.withMaxFrameLen maxFrameLen) chunks =
        (.ok (messages.map WireMessage.decoded), .withMaxFrameLen maxFrameLen) ∧
      (decodeChunks (.withMaxFrameLen maxFrameLen) chunks).2.isEmpty = true) ∧
    (∀ (d d' : EventStreamDecoder) (msg : EventStreamMessage),
      d.decode = (.ok (some msg), d') →
      ∃ frame, Checked frame ∧ d.buf = frame ++ d'.buf ∧ frame.length ≤ d.maxFrameLen ∧
        decodeFrame frame frame.length (u32At frame 4) = .ok msg) := by
  refine ⟨fun messages chunks hfits hchunks => ?_, fun d d' msg h => decode_checked h⟩
  have hdrain := drain_encode hfits
  rw [← hchunks] at hdrain
  have hpushed := drainChunks_flatten (rfl : (frameReader maxFrameLen).read [] = .waiting) hdrain
  rw [frameReader_read] at hpushed
  have hdecoded : decodeChunks (.withMaxFrameLen maxFrameLen) chunks =
      (.ok (messages.map WireMessage.decoded), .withMaxFrameLen maxFrameLen) := by
    rw [decodeChunks_eq_drainChunks, EventStreamDecoder.withMaxFrameLen, hpushed]
  refine ⟨hdecoded, ?_⟩
  rw [hdecoded]
  rfl

theorem eventType_fits : (ascii ":event-type").length ≤ 255 := by
  decide +kernel

def sampleMessage : WireMessage where
  headers := [
    ⟨":event-type", .string "é", eventType_fits,
      (by decide +kernel : (ascii "é").length ≤ 65535)⟩,
    ⟨"n", .int 7, by decide +kernel, trivial⟩,
    ⟨"raw", .bytes [1, 2], by decide +kernel, (by decide : [1, 2].length ≤ 65535)⟩]
  payload := ascii "ok"
  frame_fits := by decide +kernel

def sampleBytes : Bytes := sampleMessage.encode

/-- Two messages, cut inside the first prelude and inside the second message. -/
theorem decoding_inverts_encoding_sample :
    decodeChunks (.withMaxFrameLen 100)
        [sampleBytes.take 5, [], sampleBytes.drop 5 ++ sampleBytes.take 20, sampleBytes.drop 20] =
      (.ok [sampleMessage.decoded, sampleMessage.decoded], .withMaxFrameLen 100) ∧
    ∃ frame, Checked frame ∧ sampleBytes = frame ++ [] ∧ frame.length ≤ 100 ∧
      decodeFrame frame frame.length (u32At frame 4) = .ok sampleMessage.decoded := by
  have hlen : sampleBytes.length ≤ 100 := by decide +kernel
  refine ⟨?_, ?_⟩
  · refine ((decoding_inverts_encoding 100).1 [sampleMessage, sampleMessage] _ ?_ ?_).1
    · intro m hm
      rcases mem_cons.mp hm with rfl | hm
      · exact hlen
      · rcases mem_singleton.mp hm with rfl
        exact hlen
    · decide +kernel
  · refine (decoding_inverts_encoding 100).2 ⟨sampleBytes, 100⟩ ⟨[], 100⟩ sampleMessage.decoded ?_
    have hread : readFrame 100 (sampleBytes ++ []) = .frame sampleMessage.decoded [] :=
      readFrame_encode hlen []
    rw [append_nil] at hread
    rw [decode_eq_readFrame]
    dsimp only
    rw [hread]

end Stream

theorem length_of_waiting {maxFrameLen : ℕ} {buf : Bytes}
    (h : readFrame maxFrameLen buf = .waiting) : buf.length < max preludeLen maxFrameLen := by
  by_contra hlong
  obtain ⟨hprelude, hmax⟩ := Nat.max_le.mp (Nat.not_lt.mp hlong)
  rw [readFrame, EventStreamDecoder.decode, if_neg (Nat.not_lt.mpr hprelude)] at h
  dsimp only at h
  split_ifs at h with hshort hlarge hpart
  · omega
  · rcases hframe : decodeFrame (buf.take (u32At buf 0)) (u32At buf 0) (u32At buf 4) with e | m <;>
      rw [hframe] at h <;> cases h

/-- However a stream is cut, a decoder that has taken every frame out holds less than a prelude or
less than the largest frame it accepts. -/
theorem retained_within_limit (maxFrameLen : ℕ) {chunks : List Bytes}
    {msgs : List EventStreamMessage} {d : EventStreamDecoder}
    (h : decodeChunks (.withMaxFrameLen maxFrameLen) chunks = (.ok msgs, d)) :
    d.buf.length < max preludeLen maxFrameLen := by
  rw [decodeChunks_eq_drainChunks, EventStreamDecoder.withMaxFrameLen] at h
  rcases hstop : drainChunks (readFrame maxFrameLen) [] chunks with ⟨ms, r | ⟨e, r⟩⟩ <;>
    simp only [hstop] at h
  · cases h
    exact length_of_waiting (drainChunks_settled (R := frameReader maxFrameLen) rfl hstop)
  · cases h

theorem prelude_retained : ∃ d : EventStreamDecoder,
    decodeChunks (.withMaxFrameLen 100) [[0, 0], [0, 90, 0]] = (.ok [], d) ∧
      d.buf.length < 100 := by
  have hchunks : decodeChunks (.withMaxFrameLen 100) [[0, 0], [0, 90, 0]] =
      (.ok [], ⟨[0, 0, 0, 90, 0], 100⟩) := rfl
  exact ⟨_, hchunks, retained_within_limit 100 hchunks⟩

end EventStreamRoundTrip
