import PraxisAi.SseFrames

/-! # UTF-8 text

The strict decoder beside the lossy one: a byte that does not fit its place ends it. -/
namespace Utf8Text

open List
open SseFrames

/-- One byte of well-formed text, and the character it completes. -/
def strictByte (state : Option Partial) (b : UInt8) : Option (List Char × Option Partial) :=
  match state with
  | none =>
    if b < 0x80 then some ([Char.ofNat b.toNat], none)
    else (leadByte b).map fun p => ([], some p)
  | some p =>
    if p.low ≤ b ∧ b ≤ p.high then
      let point := p.point * 64 + (b.toNat - 0x80)
      if p.missing = 1 then some ([Char.ofNat point], none)
      else some ([], some ⟨p.missing - 1, point, 0x80, 0xBF⟩)
    else none

def strictChars : Option Partial → Bytes → Option (List Char)
  | none, [] => some []
  | some _, [] => none
  | state, b :: rest =>
    match strictByte state b with
    | none => none
    | some (chars, next) => (strictChars next rest).map (chars ++ ·)

def fromUtf8 (bytes : Bytes) : Option String := (strictChars none bytes).map String.ofList

section Chunks

/-- The well-formed text in front and the bytes of a character that is not complete, of which some
are already read; no value if a byte does not fit its place. -/
def splitFrom : Option Partial → Bytes → Bytes → Option (Bytes × Bytes)
  | _, pending, [] => some ([], pending)
  | state, pending, b :: rest =>
    match strictByte state b with
    | none => none
    | some (_, none) =>
      (splitFrom none [] rest).map fun (valid, tail) => (pending ++ b :: valid, tail)
    | some (_, some p) => splitFrom (some p) (pending ++ [b]) rest

def splitUtf8 (bytes : Bytes) : Option (Bytes × Bytes) := splitFrom none [] bytes

def isUtf8 (bytes : Bytes) : Bool := splitUtf8 bytes == some (bytes, [])

theorem splitFrom_append {state : Option Partial} {pending bytes valid tail : Bytes}
    (h : splitFrom state pending bytes = some (valid, tail)) :
    pending ++ bytes = valid ++ tail := by
  induction bytes generalizing state pending valid tail with
  | nil =>
    cases h
    rw [append_nil, nil_append]
  | cons b rest ih =>
    rw [splitFrom] at h
    split at h
    · cases h
    · obtain ⟨⟨valid', tail'⟩, hrest, heq⟩ := Option.map_eq_some_iff.mp h
      cases heq
      have hsplit := ih hrest
      rw [nil_append] at hsplit
      rw [hsplit, append_assoc, cons_append]
    · have hsplit := ih h
      rwa [append_assoc, singleton_append] at hsplit

theorem splitUtf8_append {bytes valid tail : Bytes} (h : splitUtf8 bytes = some (valid, tail)) :
    bytes = valid ++ tail := splitFrom_append h

theorem splitFrom_valid {state : Option Partial} {pending bytes valid tail : Bytes}
    (h : splitFrom state pending bytes = some (valid, tail)) :
    (valid = [] ∧ tail = pending ++ bytes) ∨
      ∃ front, valid = pending ++ front ∧ splitFrom state pending front = some (valid, []) := by
  induction bytes generalizing state pending valid tail with
  | nil =>
    cases h
    exact .inl ⟨rfl, (append_nil _).symm⟩
  | cons b rest ih =>
    rw [splitFrom] at h
    rcases hbyte : strictByte state b with _ | ⟨chars, _ | p⟩
    · rw [hbyte] at h
      cases h
    · rw [hbyte] at h
      obtain ⟨⟨valid', tail'⟩, hrest, heq⟩ := Option.map_eq_some_iff.mp h
      cases heq
      refine .inr ⟨b :: valid', rfl, ?_⟩
      rw [splitFrom, hbyte]
      rcases ih hrest with ⟨rfl, -⟩ | ⟨front, hfront, hvalid⟩
      · rfl
      · rw [nil_append] at hfront
        subst hfront
        dsimp only
        rw [hvalid]
        rfl
    · rw [hbyte] at h
      rcases ih h with ⟨hvalid, htail⟩ | ⟨front, hfront, hvalid⟩
      · exact .inl ⟨hvalid, by rw [htail, append_assoc, singleton_append]⟩
      · refine .inr ⟨b :: front, by rw [hfront, append_assoc, singleton_append], ?_⟩
        rw [splitFrom, hbyte]
        exact hvalid

theorem isUtf8_of_split {bytes valid tail : Bytes} (h : splitUtf8 bytes = some (valid, tail)) :
    isUtf8 valid = true := by
  rw [isUtf8, beq_iff_eq]
  rcases splitFrom_valid h with ⟨rfl, -⟩ | ⟨front, hfront, hvalid⟩
  · rfl
  · rw [nil_append] at hfront
    subst hfront
    exact hvalid

end Chunks

section RoundTrip

/-- The characters completed by some bytes and the state after them. -/
def strictRun : Option Partial → Bytes → Option (List Char × Option Partial)
  | state, [] => some ([], state)
  | state, b :: rest =>
    (strictByte state b).bind fun (chars, next) =>
      (strictRun next rest).map fun (more, last) => (chars ++ more, last)

theorem lossyByte_of_strictByte {state : Option Partial} {b : UInt8}
    {out : List Char × Option Partial} (h : strictByte state b = some out) :
    lossyByte state b = out := by
  rcases state with _ | p
  · rw [strictByte] at h
    rw [lossyByte, startChar]
    by_cases hsmall : b < 0x80
    · rw [if_pos hsmall] at h ⊢
      exact Option.some.inj h
    · rw [if_neg hsmall] at h ⊢
      obtain ⟨p, hlead, hout⟩ := Option.map_eq_some_iff.mp h
      rw [hlead]
      exact hout
  · rw [strictByte] at h
    rw [lossyByte]
    by_cases hrange : p.low ≤ b ∧ b ≤ p.high
    · rw [if_pos hrange] at h ⊢
      by_cases hlast : p.missing = 1
      · rw [if_pos hlast] at h ⊢
        exact Option.some.inj h
      · rw [if_neg hlast] at h ⊢
        exact Option.some.inj h
    · rw [if_neg hrange] at h
      cases h

theorem strictRun_cons {state last : Option Partial} {b : UInt8} {rest : Bytes}
    {chars : List Char} (h : strictRun state (b :: rest) = some (chars, last)) :
    ∃ first next more, strictByte state b = some (first, next) ∧
      strictRun next rest = some (more, last) ∧ chars = first ++ more := by
  obtain ⟨⟨first, next⟩, hbyte, hrest⟩ := Option.bind_eq_some_iff.mp h
  obtain ⟨⟨more, last'⟩, hmore, hout⟩ := Option.map_eq_some_iff.mp hrest
  cases hout
  exact ⟨first, next, more, hbyte, hmore, rfl⟩

theorem lossyChars_of_strictRun {state last : Option Partial} {bytes : Bytes} {chars : List Char}
    (h : strictRun state bytes = some (chars, last)) (rest : Bytes) :
    lossyChars state (bytes ++ rest) = chars ++ lossyChars last rest := by
  induction bytes generalizing state chars with
  | nil =>
    cases h
    rfl
  | cons b bytes ih =>
    obtain ⟨first, next, more, hbyte, hmore, rfl⟩ := strictRun_cons h
    rw [cons_append, lossyChars, lossyByte_of_strictByte hbyte, ih hmore, append_assoc]

theorem strictChars_of_strictRun {state last : Option Partial} {bytes : Bytes} {chars : List Char}
    (h : strictRun state bytes = some (chars, last)) (rest : Bytes) :
    strictChars state (bytes ++ rest) = (strictChars last rest).map (chars ++ ·) := by
  induction bytes generalizing state chars with
  | nil =>
    cases h
    exact Option.map_id'.symm
  | cons b bytes ih =>
    obtain ⟨first, next, more, hbyte, hmore, rfl⟩ := strictRun_cons h
    rw [cons_append, strictChars, hbyte]
    dsimp only
    rw [ih hmore, Option.map_map]
    congr 1
    funext more'
    exact (append_assoc _ _ _).symm

theorem strictByte_two : ∀ k < 32, 2 ≤ k →
    strictByte none (UInt8.ofNat (k + 192)) = some ([], some ⟨1, k, 0x80, 0xBF⟩) := by decide

theorem strictByte_three : ∀ k < 16, strictByte none (UInt8.ofNat (k + 224)) =
    some ([], some ⟨2, k, if k = 0 then 0xA0 else 0x80, if k = 13 then 0x9F else 0xBF⟩) := by decide

theorem strictByte_four : ∀ k < 5, strictByte none (UInt8.ofNat (k + 240)) =
    some ([], some ⟨3, k, if k = 0 then 0x90 else 0x80, if k = 4 then 0x8F else 0xBF⟩) := by decide

theorem strictByte_one : ∀ k < 128,
    strictByte none (UInt8.ofNat k) = some ([Char.ofNat k], none) := by
  intro k hk
  have hsmall : UInt8.ofNat k < 0x80 := by
    rw [UInt8.lt_iff_toNat_lt, UInt8.toNat_ofNat']
    simp
    omega
  rw [strictByte, if_pos hsmall, UInt8.toNat_ofNat', Nat.mod_eq_of_lt (by omega)]

theorem byte_in_range {low high : UInt8} {k : ℕ} (hk : k < 64) (hlow : low.toNat ≤ k + 128)
    (hhigh : k + 128 ≤ high.toNat) :
    (UInt8.ofNat (k + 128)).toNat = k + 128 ∧
      low ≤ UInt8.ofNat (k + 128) ∧ UInt8.ofNat (k + 128) ≤ high := by
  have hbyte : (UInt8.ofNat (k + 128)).toNat = k + 128 := by
    rw [UInt8.toNat_ofNat', Nat.mod_eq_of_lt (by omega)]
  refine ⟨hbyte, ?_⟩
  rw [UInt8.le_iff_toNat_le, UInt8.le_iff_toNat_le, hbyte]
  exact ⟨hlow, hhigh⟩

theorem strictRun_silent {state : Option Partial} {b : UInt8} {p : Partial}
    (h : strictByte state b = some ([], some p)) (rest : Bytes) :
    strictRun state (b :: rest) = strictRun (some p) rest := by
  rw [strictRun, h, Option.bind_some]
  exact Option.map_id'

theorem strictRun_last {point k : ℕ} {low high : UInt8} (hk : k < 64)
    (hlow : low.toNat ≤ k + 128) (hhigh : k + 128 ≤ high.toNat) :
    strictRun (some ⟨1, point, low, high⟩) [UInt8.ofNat (k + 128)] =
      some ([Char.ofNat (point * 64 + k)], none) := by
  obtain ⟨hbyte, hrange⟩ := byte_in_range hk hlow hhigh
  rw [strictRun, strictByte, if_pos hrange, hbyte, Nat.add_sub_cancel]
  rfl

theorem strictRun_more {missing point k : ℕ} {low high : UInt8} (hk : k < 64)
    (hlow : low.toNat ≤ k + 128) (hhigh : k + 128 ≤ high.toNat) (rest : Bytes) :
    strictRun (some ⟨missing + 2, point, low, high⟩) (UInt8.ofNat (k + 128) :: rest) =
      strictRun (some ⟨missing + 1, point * 64 + k, 0x80, 0xBF⟩) rest := by
  obtain ⟨hbyte, hrange⟩ := byte_in_range hk hlow hhigh
  have hmore : strictByte (some ⟨missing + 2, point, low, high⟩) (UInt8.ofNat (k + 128)) =
      some ([], some ⟨missing + 1, point * 64 + k, 0x80, 0xBF⟩) := by
    rw [strictByte, if_pos hrange, hbyte, Nat.add_sub_cancel]
    rfl
  exact strictRun_silent hmore rest

theorem strictRun_encodeChar (c : Char) :
    strictRun none (String.utf8EncodeChar c) = some ([c], none) := by
  have hvalid : c.val.toNat < 0xD800 ∨ (0xDFFF < c.val.toNat ∧ c.val.toNat < 0x110000) := c.valid
  have hself : Char.ofNat c.val.toNat = c := Char.ofNat_toNat c
  rw [String.utf8EncodeChar]
  generalize c.val.toNat = v at hvalid hself
  by_cases h1 : v ≤ 127
  · rw [if_pos h1, strictRun, strictByte_one v (by omega), hself]
    rfl
  rw [if_neg h1]
  by_cases h2 : v ≤ 2047
  · have hpoint : v / 64 % 32 * 64 + v % 64 = v := by omega
    rw [if_pos h2, strictRun_silent (strictByte_two _ (by omega) (by omega)),
      strictRun_last (by omega), hpoint, hself]
    · simp only [UInt8.reduceToNat]; omega
    · simp only [UInt8.reduceToNat]; omega
  rw [if_neg h2]
  by_cases h3 : v ≤ 65535
  · have hpoint : (v / 4096 % 16 * 64 + v / 64 % 64) * 64 + v % 64 = v := by omega
    rw [if_pos h3, strictRun_silent (strictByte_three _ (by omega)), strictRun_more (by omega),
      strictRun_last (by omega), hpoint, hself]
    · simp only [UInt8.reduceToNat]; omega
    · simp only [UInt8.reduceToNat]; omega
    · by_cases hzero : v / 4096 % 16 = 0
      · simp only [if_pos hzero, UInt8.reduceToNat]; omega
      · simp only [if_neg hzero, UInt8.reduceToNat]; omega
    · by_cases hthirteen : v / 4096 % 16 = 13
      · simp only [if_pos hthirteen, UInt8.reduceToNat]; omega
      · simp only [if_neg hthirteen, UInt8.reduceToNat]; omega
  · have hpoint : ((v / 262144 % 8 * 64 + v / 4096 % 64) * 64 + v / 64 % 64) * 64 + v % 64 = v := by
      omega
    rw [if_neg h3, strictRun_silent (strictByte_four _ (by omega)), strictRun_more (by omega),
      strictRun_more (by omega), strictRun_last (by omega), hpoint, hself]
    · simp only [UInt8.reduceToNat]; omega
    · simp only [UInt8.reduceToNat]; omega
    · simp only [UInt8.reduceToNat]; omega
    · simp only [UInt8.reduceToNat]; omega
    · by_cases hzero : v / 262144 % 8 = 0
      · simp only [if_pos hzero, UInt8.reduceToNat]; omega
      · simp only [if_neg hzero, UInt8.reduceToNat]; omega
    · by_cases hfour : v / 262144 % 8 = 4
      · simp only [if_pos hfour, UInt8.reduceToNat]; omega
      · simp only [if_neg hfour, UInt8.reduceToNat]; omega

theorem ascii_eq (text : String) : ascii text = text.toList.flatMap String.utf8EncodeChar := by
  have hbytes : text.toUTF8 = text.toList.utf8Encode := by
    conv_lhs => rw [← String.ofList_toList (s := text)]
    exact String.toByteArray_ofList
  rw [ascii, hbytes, List.utf8Encode, data_toByteArray]

/-- A text is read back from its bytes. -/
theorem fromUtf8Lossy_ascii (text : String) : fromUtf8Lossy (ascii text) = text := by
  have h : ∀ chars : List Char, lossyChars none (chars.flatMap String.utf8EncodeChar) = chars := by
    intro chars
    induction chars with
    | nil => rfl
    | cons c chars ih =>
      rw [flatMap_cons, lossyChars_of_strictRun (strictRun_encodeChar c), ih, singleton_append]
  rw [fromUtf8Lossy, ascii_eq, h, String.ofList_toList]

theorem fromUtf8_ascii (text : String) : fromUtf8 (ascii text) = some text := by
  have h : ∀ chars : List Char,
      strictChars none (chars.flatMap String.utf8EncodeChar) = some chars := by
    intro chars
    induction chars with
    | nil => rfl
    | cons c chars ih =>
      rw [flatMap_cons, strictChars_of_strictRun (strictRun_encodeChar c), ih]
      rfl
  rw [fromUtf8, ascii_eq, h, Option.map_some, String.ofList_toList]

end RoundTrip

end Utf8Text
