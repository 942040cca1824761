import PraxisAi.Base64Text
import PraxisAi.Utf8Text

/-! # The name header of a tool call

A tool name travels in a header, as it is or encoded between two marks. The writer decides by the
characters of the name alone, the reader by the marks. -/
namespace McpNameHeaders

open List
open SseFrames Utf8Text

/-- A base64 engine: its reader inverts its writer, whose texts are visible and not shorter than
the bytes. -/
structure Base64 where
  encode : Bytes → List Char
  decode : List Char → Option Bytes
  decode_iff : ∀ text bytes, decode text = some bytes ↔ encode bytes = text
  visible : ∀ bytes, ∀ c ∈ encode bytes, 32 ≤ c.toNat ∧ c.toNat < 127
  length_le : ∀ bytes, bytes.length ≤ (encode bytes).length

def sentinelPrefix : List Char := "=?base64?".toList

def sentinelSuffix : List Char := "?=".toList

def isHeaderText (text : List Char) : Bool :=
  text.all fun c => (32 ≤ c.toNat && c.toNat < 127) || c.toNat == 9

/-- A name is sent as it is when it is ASCII without control characters. -/
def isPlain (name : List Char) : Bool :=
  name.all (fun c => c.toNat < 128) && !name.any (fun c => c.toNat < 0x20 || c.toNat == 0x7F) &&
    isHeaderText name

def sentinel (engine : Base64) (name : List Char) : List Char :=
  sentinelPrefix ++ (engine.encode (ascii (String.ofList name)) ++ sentinelSuffix)

def encodeMcpName (engine : Base64) (name : List Char) : List Char :=
  if isPlain name then name else sentinel engine name

def sentinelBody (value : List Char) : Option (List Char) :=
  if sentinelPrefix.isPrefixOf value then
    let rest := value.drop sentinelPrefix.length
    if sentinelSuffix.isSuffixOf rest then
      some (rest.take (rest.length - sentinelSuffix.length))
    else none
  else none

inductive McpNameDecodeError where
  | base64
  | utf8

def decodeMcpName (engine : Base64) (value : List Char) :
    Except McpNameDecodeError (Option (List Char)) :=
  match sentinelBody value with
  | none => .ok none
  | some inner =>
    match engine.decode inner with
    | none => .error .base64
    | some bytes =>
      match fromUtf8 bytes with
      | none => .error .utf8
      | some name => .ok (some name.toList)

/-- The name that is compared with the body; none when the header is refused. -/
def headerName (engine : Base64) (value : List Char) : Option (List Char) :=
  match decodeMcpName engine value with
  | .ok (some decoded) => some decoded
  | .ok none => some value
  | .error _ => none

theorem sentinelBody_eq {value inner : List Char} :
    sentinelBody value = some inner ↔ value = sentinelPrefix ++ (inner ++ sentinelSuffix) := by
  unfold sentinelBody
  constructor
  · intro h
    by_cases hfront : sentinelPrefix.isPrefixOf value = true
    · obtain ⟨rest, rfl⟩ := isPrefixOf_iff_prefix.mp hfront
      rw [if_pos hfront] at h
      dsimp only at h
      rw [drop_left] at h
      by_cases hback : sentinelSuffix.isSuffixOf rest = true
      · obtain ⟨body, rfl⟩ := isSuffixOf_iff_suffix.mp hback
        rw [if_pos hback, length_append, Nat.add_sub_cancel, take_left] at h
        rw [Option.some.inj h]
      · rw [if_neg hback] at h
        cases h
    · rw [if_neg hfront] at h
      cases h
  · rintro rfl
    rw [if_pos ( isPrefixOf_iff_prefix.mpr (prefix_append _ _))]
    dsimp only
    rw [drop_left, if_pos (isSuffixOf_iff_suffix.mpr (suffix_append _ _)),
      length_append, Nat.add_sub_cancel, take_left]

theorem isPlain_of_visible {text : List Char} (h : ∀ c ∈ text, 32 ≤ c.toNat ∧ c.toNat < 127) :
    isPlain text = true := by
  unfold isPlain isHeaderText
  rw [Bool.and_eq_true, Bool.and_eq_true, Bool.not_eq_true', all_eq_true, any_eq_false, all_eq_true]
  refine ⟨⟨fun c hc => ?_, fun c hc => ?_⟩, fun c hc => ?_⟩
  · have hvisible := h c hc
    exact decide_eq_true (by omega)
  · have hvisible := h c hc
    simp only [Bool.or_eq_true, decide_eq_true_eq, beq_iff_eq]
    omega
  · have hvisible := h c hc
    simp only [Bool.or_eq_true, Bool.and_eq_true, decide_eq_true_eq]
    omega

/-- An encoded name is itself a visible text: it can always be sent, also as a name. -/
theorem isPlain_sentinel (engine : Base64) (name : List Char) :
    isPlain (sentinel engine name) = true := by
  apply isPlain_of_visible
  intro c hc
  have hmarks : (sentinelPrefix ++ sentinelSuffix).all
      (fun c => decide (32 ≤ c.toNat ∧ c.toNat < 127)) = true := by decide
  have hmark : ∀ c ∈ sentinelPrefix ++ sentinelSuffix, 32 ≤ c.toNat ∧ c.toNat < 127 :=
    fun c hc => of_decide_eq_true (all_eq_true.mp hmarks c hc)
  rcases mem_append.mp hc with hc | hc
  · exact hmark c (mem_append_left _ hc)
  · rcases mem_append.mp hc with hc | hc
    · exact engine.visible _ c hc
    · exact hmark c (mem_append_right _ hc)

theorem headerName_sentinel (engine : Base64) (name : List Char) :
    headerName engine (sentinel engine name) = some name := by
  have hbody : sentinelBody (sentinel engine name) =
      some (engine.encode (ascii (String.ofList name))) := sentinelBody_eq.mpr rfl
  have hdecode : engine.decode (engine.encode (ascii (String.ofList name))) =
      some (ascii (String.ofList name)) := (engine.decode_iff _ _).mpr rfl
  unfold headerName decodeMcpName
  rw [hbody]
  dsimp only
  rw [hdecode]
  dsimp only
  rw [fromUtf8_ascii]
  dsimp only
  rw [String.toList_ofList]

theorem headerName_plain {engine : Base64} {value : List Char} (h : sentinelBody value = none) :
    headerName engine value = some value := by
  unfold headerName decodeMcpName
  rw [h]

theorem length_strictByte {state next : Option Partial} {b : UInt8} {front : List Char}
    (h : strictByte state b = some (front, next)) : front.length ≤ 1 := by
  unfold strictByte at h
  rcases state with _ | p
  · dsimp only at h
    split at h
    · cases h
      exact Nat.le_refl _
    · obtain ⟨p, -, hp⟩ := Option.map_eq_some_iff.mp h
      cases hp
      exact Nat.zero_le _
  · dsimp only at h
    split at h
    · split at h
      · cases h
        exact Nat.le_refl _
      · cases h
        exact Nat.zero_le _
    · cases h

theorem length_strictChars {state : Option Partial} {bytes : Bytes} {chars : List Char}
    (h : strictChars state bytes = some chars) : chars.length ≤ bytes.length := by
  induction bytes generalizing state chars with
  | nil =>
    cases state with
    | none =>
      cases h
      exact Nat.le_refl _
    | some p => cases h
  | cons b rest ih =>
    rw [strictChars] at h
    rcases hbyte : strictByte state b with _ | ⟨front, next⟩
    · rw [hbyte] at h
      cases h
    · rw [hbyte] at h
      obtain ⟨tail, htail, rfl⟩ := Option.map_eq_some_iff.mp h
      have hfront := length_strictByte hbyte
      have hrest := ih htail
      rw [length_append, length_cons]
      omega

/-- A text between the marks is never read as itself: what it encodes is shorter. -/
theorem headerName_ne {engine : Base64} {value inner : List Char}
    (h : sentinelBody value = some inner) : headerName engine value ≠ some value := by
  intro hread
  unfold headerName decodeMcpName at hread
  rw [h] at hread
  dsimp only at hread
  rcases hdecode : engine.decode inner with _ | bytes
  · rw [hdecode] at hread
    cases hread
  · rw [hdecode] at hread
    dsimp only at hread
    rcases hname : fromUtf8 bytes with _ | name
    · rw [hname] at hread
      cases hread
    · rw [hname] at hread
      have hvalue : name.toList = value := Option.some.inj hread
      have hencoded := (engine.decode_iff inner bytes).mp hdecode
      have hbytes : name.toList.length ≤ bytes.length := by
        obtain ⟨chars, hchars, rfl⟩ := Option.map_eq_some_iff.mp hname
        rw [String.toList_ofList]
        exact length_strictChars hchars
      have hinner := engine.length_le bytes
      have hlength := congrArg List.length (sentinelBody_eq.mp h)
      rw [length_append, length_append, ← hencoded, ← hvalue] at hlength
      have hmark : sentinelPrefix.length = 9 := by decide
      omega

/-- A name that is sent as it is and read between the marks. -/
def Misread (name : List Char) : Prop := isPlain name = true ∧ (sentinelBody name).isSome = true

instance (name : List Char) : Decidable (Misread name) :=
  inferInstanceAs (Decidable (_ ∧ _))

theorem headerName_encode {engine : Base64} {name : List Char} (h : ¬Misread name) :
    headerName engine (encodeMcpName engine name) = some name := by
  unfold encodeMcpName
  by_cases hplain : isPlain name = true
  · rw [if_pos hplain]
    apply headerName_plain
    by_contra hbody
    exact h ⟨hplain, Option.isSome_iff_ne_none.mpr hbody⟩
  · rw [if_neg hplain]
    exact headerName_sentinel engine name

/-- A name comes back exactly when it is not itself a visible text between the marks, and two names
share a header exactly when one is the encoded form of the other. -/
theorem names_read_back_iff (engine : Base64) :
    (∀ name, headerName engine (encodeMcpName engine name) = some name ↔ ¬Misread name) ∧
    ∀ name other, name ≠ other →
      (encodeMcpName engine name = encodeMcpName engine other ↔
        (isPlain other = false ∧ name = sentinel engine other) ∨
        (isPlain name = false ∧ other = sentinel engine name)) := by
  constructor
  · intro name
    constructor
    · rintro hread ⟨hplain, hbody⟩
      obtain ⟨inner, hinner⟩ := Option.isSome_iff_exists.mp hbody
      unfold encodeMcpName at hread
      rw [if_pos hplain] at hread
      exact headerName_ne hinner hread
    · intro hname
      exact headerName_encode hname
  · intro name other hne
    unfold encodeMcpName
    by_cases hname : isPlain name = true
    · by_cases hother : isPlain other = true
      · simp [hname, hother, hne]
      · simp [hname, hother]
    · by_cases hother : isPlain other = true
      · simp only [hname, hother, if_true, Bool.false_eq_true, if_false]
        simp [eq_comm]
      · have hsame : sentinel engine name ≠ sentinel engine other := by
          intro heq
          have hread := headerName_sentinel engine name
          rw [heq, headerName_sentinel] at hread
          exact hne (Option.some.inj hread).symm
        have hself : name ≠ sentinel engine other := by
          rintro rfl
          exact hname (isPlain_sentinel engine other)
        have hself' : other ≠ sentinel engine name := by
          rintro rfl
          exact hother (isPlain_sentinel engine name)
        simp [hname, hother, hsame, hself, hself']

section Standard

/-- The standard alphabet ends with other characters than the one that is safe in addresses. -/
def toStandard (c : Char) : Char := if c = '-' then '+' else if c = '_' then '/' else c

/-- Base64 with the standard alphabet, filled up to whole groups of four. -/
def standardEncode (bytes : Bytes) : List Char :=
  (Base64Text.encode bytes).map toStandard ++ List.replicate ((3 - bytes.length % 3) % 3) '='

theorem standard_alphabet : (Base64Text.alphabet.map toStandard).all
    (fun c => decide (32 ≤ c.toNat ∧ c.toNat < 127 ∧ c ≠ '=')) = true := by decide

theorem of_mem_standard {bytes : Bytes} {c : Char}
    (h : c ∈ (Base64Text.encode bytes).map toStandard) :
    32 ≤ c.toNat ∧ c.toNat < 127 ∧ c ≠ '=' := by
  obtain ⟨d, hd, rfl⟩ := mem_map.mp h
  exact of_decide_eq_true (all_eq_true.mp standard_alphabet _
    (mem_map_of_mem (Base64Text.mem_alphabet hd)))

theorem toStandard_injective {c d : Char} (hc : c ∈ Base64Text.alphabet)
    (hd : d ∈ Base64Text.alphabet) (h : toStandard c = toStandard d) : c = d := by
  have hnodup : (Base64Text.alphabet.map toStandard).Nodup := by decide +kernel
  exact inj_on_of_nodup_map hnodup hc hd h

theorem map_toStandard_injective {x y : List Char} (hx : ∀ c ∈ x, c ∈ Base64Text.alphabet)
    (hy : ∀ c ∈ y, c ∈ Base64Text.alphabet) (h : x.map toStandard = y.map toStandard) : x = y := by
  induction x generalizing y with
  | nil => exact (map_eq_nil_iff.mp h.symm).symm
  | cons c rest ih =>
    rcases y with _ | ⟨d, rest'⟩
    · cases h
    · obtain ⟨hhead, htail⟩ := List.cons.inj h
      rw [toStandard_injective (hx c mem_cons_self) (hy d mem_cons_self) hhead,
        ih (fun c hc => hx c (mem_cons_of_mem _ hc))
          (fun c hc => hy c (mem_cons_of_mem _ hc)) htail]

/-- What is left without the marks of the end tells the bytes. -/
theorem standardEncode_injective : Function.Injective standardEncode := by
  intro x y h
  have hfilter : ∀ bytes : Bytes, (standardEncode bytes).filter (fun c => decide (c ≠ '=')) =
      (Base64Text.encode bytes).map toStandard := by
    intro bytes
    rw [standardEncode, filter_append, filter_replicate_of_neg (by decide),
      append_nil, filter_eq_self]
    exact fun c hc => decide_eq_true (of_mem_standard hc).2.2
  have hmap := hfilter x
  rw [h, hfilter y] at hmap
  exact Base64Text.encode_injective (map_toStandard_injective
    (fun c hc => Base64Text.mem_alphabet hc) (fun c hc => Base64Text.mem_alphabet hc) hmap.symm)

theorem length_encode (bytes : Bytes) : bytes.length ≤ (Base64Text.encode bytes).length := by
  induction bytes using Base64Text.encode.induct with
  | case1 a b c rest ih =>
    rw [Base64Text.encode]
    simp only [length_cons]
    omega
  | case2 a b =>
    rw [Base64Text.encode]
    exact Nat.le_succ 2
  | case3 a =>
    rw [Base64Text.encode]
    exact Nat.le_succ 1
  | case4 => exact Nat.le_refl 0

theorem standard_visible (bytes : Bytes) (c : Char) (hc : c ∈ standardEncode bytes) :
    32 ≤ c.toNat ∧ c.toNat < 127 := by
  rcases mem_append.mp hc with hc | hc
  · obtain ⟨hlow, hhigh, -⟩ := of_mem_standard hc
    exact ⟨hlow, hhigh⟩
  · rw [(mem_replicate.mp hc).2]
    decide

theorem standard_length_le (bytes : Bytes) : bytes.length ≤ (standardEncode bytes).length := by
  rw [standardEncode, length_append, length_map]
  exact Nat.le_add_right_of_le (length_encode bytes)

/-- The engine the broker uses; its reader is the inverse of its writer. -/
noncomputable def standard : Base64 where
  encode := standardEncode
  decode := Function.partialInv standardEncode
  decode_iff text bytes := standardEncode_injective.isPartialInv bytes text
  visible := standard_visible
  length_le := standard_length_le

end Standard

theorem foreign_name_read_back :
    headerName standard (encodeMcpName standard "é".toList) = some "é".toList ∧
    encodeMcpName standard "é".toList ≠ encodeMcpName standard "e".toList := by
  obtain ⟨hread, hshared⟩ := names_read_back_iff standard
  refine ⟨(hread _).mpr (by decide), fun hsame => ?_⟩
  rcases (hshared "é".toList "e".toList (by decide)).mp hsame with ⟨hplain, -⟩ | ⟨-, hname⟩
  · exact absurd hplain (by decide)
  · exact absurd hname (by decide)

/-- A tool named like an encoded name is called under the name it encodes. -/
theorem sentinel_name_misread :
    headerName standard (encodeMcpName standard "=?base64?w6k=?=".toList) = some "é".toList ∧
    encodeMcpName standard "=?base64?w6k=?=".toList = encodeMcpName standard "é".toList := by
  have hsentinel : sentinel standard "é".toList = "=?base64?w6k=?=".toList := by decide
  have hplain := isPlain_sentinel standard "é".toList
  have hencode : encodeMcpName standard (sentinel standard "é".toList) =
      sentinel standard "é".toList := if_pos hplain
  have hother : encodeMcpName standard "é".toList = sentinel standard "é".toList := by
    unfold encodeMcpName
    rw [if_neg (by decide)]
  rw [← hsentinel, hencode, hother]
  exact ⟨headerName_sentinel standard _, rfl⟩

end McpNameHeaders
