import Mathlib.Data.Fintype.Basic
import Mathlib.Data.List.OfFn
import Mathlib.Data.Nat.Digits.Defs

/-! # Textual network addresses

Reading and writing IPv4 and IPv6 addresses and socket addresses. A reader takes characters from
the front of a text and leaves the rest; what it refuses it has not read. -/
namespace IpAddresses

abbrev Text := List Char

structure Ipv4Addr where
  a : UInt8
  b : UInt8
  c : UInt8
  d : UInt8
  deriving DecidableEq

structure Ipv6Addr where
  segments : Fin 8 → UInt16
  deriving DecidableEq

inductive IpAddr where
  | v4 (addr : Ipv4Addr)
  | v6 (addr : Ipv6Addr)
  deriving DecidableEq

structure SocketAddr where
  ip : IpAddr
  port : ℕ
  deriving DecidableEq

abbrev Reader (α : Type) := Text → Option (α × Text)

section Reading

def toDigit (radix : ℕ) (ch : Char) : Option ℕ :=
  let value :=
    if '0' ≤ ch ∧ ch ≤ '9' then some (ch.toNat - '0'.toNat)
    else if 'a' ≤ ch ∧ ch ≤ 'z' then some (ch.toNat - 'a'.toNat + 10)
    else if 'A' ≤ ch ∧ ch ≤ 'Z' then some (ch.toNat - 'A'.toNat + 10)
    else none
  value.filter fun digit => digit < radix

def readDigits (radix : ℕ) : Text → List ℕ × Text
  | [] => ([], [])
  | ch :: rest =>
    match toDigit radix ch with
    | some digit => (digit :: (readDigits radix rest).1, (readDigits radix rest).2)
    | none => ([], ch :: rest)

/-- A number below `bound`. More digits than `maxDigits` are refused, and so is a number with
leading zeros unless they are allowed. -/
def readNumber (radix : ℕ) (maxDigits : Option ℕ) (allowZeroPrefix : Bool) (bound : ℕ) :
    Reader ℕ := fun text =>
  let digits := (readDigits radix text).1
  let number := digits.foldl (fun number digit => number * radix + digit) 0
  if maxDigits.any fun limit => limit < digits.length then none
  else if digits.isEmpty then none
  else if !allowZeroPrefix && digits.head? = some 0 && 1 < digits.length then none
  else if number < bound then some (number, (readDigits radix text).2)
  else none

def readGivenChar (target : Char) : Reader Unit
  | ch :: rest => if ch = target then some ((), rest) else none
  | [] => none

def readSeparator {α : Type} (separator : Char) (index : ℕ) (inner : Reader α) : Reader α :=
  fun text =>
    if 0 < index then (readGivenChar separator text).bind fun found => inner found.2
    else inner text

def readOctet (index : ℕ) : Reader ℕ :=
  readSeparator '.' index (readNumber 10 (some 3) false 256)

def readIpv4Addr : Reader Ipv4Addr := fun text =>
  (readOctet 0 text).bind fun a =>
  (readOctet 1 a.2).bind fun b =>
  (readOctet 2 b.2).bind fun c =>
  (readOctet 3 c.2).map fun d =>
    (⟨.ofNat a.1, .ofNat b.1, .ofNat c.1, .ofNat d.1⟩, d.2)

def pairToSegment (high low : UInt8) : UInt16 := .ofNat (high.toNat * 256 + low.toNat)

/-- Up to `left` groups, the last two of which may be written as an IPv4 address; whether they
were is told with the groups. -/
def readGroups : (left index : ℕ) → Text → (List UInt16 × Bool) × Text
  | 0, _, text => (([], false), text)
  | left + 1, index, text =>
    match if 0 < left then readSeparator ':' index readIpv4Addr text else none with
    | some (v4, rest) => (([pairToSegment v4.a v4.b, pairToSegment v4.c v4.d], true), rest)
    | none =>
      match readSeparator ':' index (readNumber 16 (some 4) true 65536) text with
      | some (group, rest) =>
        let more := readGroups left (index + 1) rest
        ((.ofNat group :: more.1.1, more.1.2), more.2)
      | none => (([], false), text)

/-- The groups of the head in front, those of the tail at the end, zeros between them. -/
def ofGroups (head tail : List UInt16) : Ipv6Addr where
  segments i :=
    if 8 - tail.length ≤ i then tail.getD (i - (8 - tail.length)) 0 else head.getD i 0

def readIpv6Addr : Reader Ipv6Addr := fun text =>
  let head := readGroups 8 0 text
  if head.1.1.length = 8 then some (ofGroups head.1.1 [], head.2)
  else if head.1.2 then none
  else
    (readGivenChar ':' head.2).bind fun first =>
    (readGivenChar ':' first.2).map fun second =>
      let tail := readGroups (8 - (head.1.1.length + 1)) 0 second.2
      (ofGroups head.1.1 tail.1.1, tail.2)

def readIpAddr : Reader IpAddr := fun text =>
  match readIpv4Addr text with
  | some (addr, rest) => some (.v4 addr, rest)
  | none => (readIpv6Addr text).map fun found => (.v6 found.1, found.2)

def readPort : Reader ℕ := fun text =>
  (readGivenChar ':' text).bind fun found => readNumber 10 none true 65536 found.2

def readScopeId : Reader ℕ := fun text =>
  (readGivenChar '%' text).bind fun found => readNumber 10 none true 4294967296 found.2

def readSocketAddrV4 : Reader SocketAddr := fun text =>
  (readIpv4Addr text).bind fun addr =>
  (readPort addr.2).map fun port => (⟨.v4 addr.1, port.1⟩, port.2)

def readSocketAddrV6 : Reader SocketAddr := fun text =>
  (readGivenChar '[' text).bind fun opened =>
  (readIpv6Addr opened.2).bind fun addr =>
  (readGivenChar ']' (((readScopeId addr.2).map Prod.snd).getD addr.2)).bind fun closed =>
  (readPort closed.2).map fun port => (⟨.v6 addr.1, port.1⟩, port.2)

def readSocketAddr : Reader SocketAddr := fun text =>
  (readSocketAddrV4 text).orElse fun _ => readSocketAddrV6 text

def parseWith {α : Type} (reader : Reader α) (text : Text) : Option α :=
  match reader text with
  | some (value, []) => some value
  | _ => none

def parseIpAddr (text : Text) : Option IpAddr := parseWith readIpAddr text

def parseSocketAddr (text : Text) : Option SocketAddr := parseWith readSocketAddr text

end Reading

section Writing

def Ipv4Addr.toText (addr : Ipv4Addr) : String :=
  ".".intercalate ([addr.a, addr.b, addr.c, addr.d].map fun octet => octet.toNat.repr)

def Ipv6Addr.toIpv4Mapped (addr : Ipv6Addr) : Option Ipv4Addr :=
  if addr.segments 0 = 0 ∧ addr.segments 1 = 0 ∧ addr.segments 2 = 0 ∧ addr.segments 3 = 0 ∧
      addr.segments 4 = 0 ∧ addr.segments 5 = 0xffff then
    let high := (addr.segments 6).toNat
    let low := (addr.segments 7).toNat
    some ⟨.ofNat (high / 256), .ofNat high, .ofNat (low / 256), .ofNat low⟩
  else none

structure Span where
  start : ℕ
  len : ℕ
  deriving DecidableEq

def longestZeros : List UInt16 → ℕ → Span → Span → Span
  | [], _, _, longest => longest
  | segment :: rest, i, current, longest =>
    if segment = 0 then
      let current : Span := ⟨if current.len = 0 then i else current.start, current.len + 1⟩
      longestZeros rest (i + 1) current (if longest.len < current.len then current else longest)
    else longestZeros rest (i + 1) ⟨0, 0⟩ longest

def segmentText (segment : UInt16) : String := String.ofList (Nat.toDigits 16 segment.toNat)

def Ipv6Addr.toText (addr : Ipv6Addr) : String :=
  match addr.toIpv4Mapped with
  | some v4 => "::ffff:" ++ v4.toText
  | none =>
    let segments := List.ofFn addr.segments
    let zeros := longestZeros segments 0 ⟨0, 0⟩ ⟨0, 0⟩
    if 1 < zeros.len then
      ":".intercalate ((segments.take zeros.start).map segmentText) ++ "::" ++
        ":".intercalate ((segments.drop (zeros.start + zeros.len)).map segmentText)
    else ":".intercalate (segments.map segmentText)

def IpAddr.toText : IpAddr → String
  | .v4 addr => addr.toText
  | .v6 addr => addr.toText

end Writing

section Characters

def addressChar (ch : Char) : Bool := (toDigit 16 ch).isSome || ch = '.' || ch = ':'

theorem toDigit_toNat {radix : ℕ} {ch : Char} (h : (toDigit radix ch).isSome = true) :
    48 ≤ ch.toNat ∧ ch.toNat ≤ 122 := by
  have hle : ∀ {x y : Char}, x ≤ y → x.toNat ≤ y.toNat := fun h => UInt32.le_iff_toNat_le.mp h
  simp only [toDigit] at h
  split at h
  · rename_i hrange
    have hlow := hle hrange.1
    have hhigh := hle hrange.2
    have h0 : '0'.toNat = 48 := rfl
    have h9 : '9'.toNat = 57 := rfl
    omega
  · split at h
    · rename_i hrange
      have hlow := hle hrange.1
      have hhigh := hle hrange.2
      have ha : 'a'.toNat = 97 := rfl
      have hz : 'z'.toNat = 122 := rfl
      omega
    · split at h
      · rename_i hrange
        have hlow := hle hrange.1
        have hhigh := hle hrange.2
        have hA : 'A'.toNat = 65 := rfl
        have hZ : 'Z'.toNat = 90 := rfl
        omega
      · cases h

theorem addressChar_toNat {ch : Char} (h : addressChar ch = true) :
    46 ≤ ch.toNat ∧ ch.toNat ≤ 122 := by
  simp only [addressChar, Bool.or_eq_true, decide_eq_true_eq] at h
  rcases h with (hdigit | rfl) | rfl
  · have hrange := toDigit_toNat hdigit
    omega
  · decide
  · decide

def Took (text rest : Text) : Prop :=
  ∃ used, text = used ++ rest ∧ ∀ ch ∈ used, addressChar ch = true

variable {α : Type} {text rest rest' : Text}

theorem Took.refl (text : Text) : Took text text := ⟨[], rfl, by simp⟩

theorem Took.trans (h : Took text rest) (h' : Took rest rest') : Took text rest' := by
  obtain ⟨used, rfl, hused⟩ := h
  obtain ⟨used', rfl, hused'⟩ := h'
  refine ⟨used ++ used', (List.append_assoc _ _ _).symm, ?_⟩
  intro ch hch
  rcases List.mem_append.mp hch with hch | hch
  · exact hused ch hch
  · exact hused' ch hch

theorem Took.cons {ch : Char} (hch : addressChar ch = true) (h : Took text rest) :
    Took (ch :: text) rest := by
  obtain ⟨used, rfl, hused⟩ := h
  refine ⟨ch :: used, rfl, ?_⟩
  intro other hother
  rcases List.mem_cons.mp hother with rfl | hother
  · exact hch
  · exact hused other hother

theorem toDigit_mono {radix : ℕ} (hradix : radix ≤ 16) {ch : Char} {digit : ℕ}
    (h : toDigit radix ch = some digit) : (toDigit 16 ch).isSome = true := by
  simp only [toDigit, Option.filter_eq_some_iff] at h
  obtain ⟨hvalue, hlt⟩ := h
  simp only [toDigit]
  rw [hvalue, Option.filter_some, if_pos]
  · rfl
  · rw [decide_eq_true_eq] at hlt ⊢
    omega

theorem took_readDigits {radix : ℕ} (hradix : radix ≤ 16) (text : Text) :
    Took text (readDigits radix text).2 := by
  induction text with
  | nil => exact Took.refl []
  | cons ch rest ih =>
    rw [readDigits]
    split
    · rename_i digit hdigit
      apply ih.cons
      rw [addressChar, toDigit_mono hradix hdigit]
      rfl
    · exact Took.refl _

theorem took_readNumber {radix : ℕ} (hradix : radix ≤ 16) {maxDigits : Option ℕ} {zeros : Bool}
    {bound number : ℕ} (h : readNumber radix maxDigits zeros bound text = some (number, rest)) :
    Took text rest := by
  simp only [readNumber] at h
  split at h
  · cases h
  · split at h
    · cases h
    · split at h
      · cases h
      · split at h
        · cases h
          exact took_readDigits hradix text
        · cases h

theorem took_readGivenChar {target : Char} (htarget : addressChar target = true)
    (h : readGivenChar target text = some ((), rest)) : Took text rest := by
  unfold readGivenChar at h
  split at h
  · split at h
    · rename_i hch
      cases h
      exact (Took.refl _).cons (hch ▸ htarget)
    · cases h
  · cases h

theorem took_readSeparator {separator : Char} (hseparator : addressChar separator = true)
    {index : ℕ} {inner : Reader α}
    (hinner : ∀ {text value rest}, inner text = some (value, rest) → Took text rest)
    {value : α} (h : readSeparator separator index inner text = some (value, rest)) :
    Took text rest := by
  rw [readSeparator] at h
  split at h
  · obtain ⟨⟨_, text'⟩, hfound, hrest⟩ := Option.bind_eq_some_iff.mp h
    exact (took_readGivenChar hseparator hfound).trans (hinner hrest)
  · exact hinner h

theorem took_readOctet {index number : ℕ} (h : readOctet index text = some (number, rest)) :
    Took text rest :=
  took_readSeparator (by decide) (fun h => took_readNumber (by decide) h) h

theorem took_readIpv4Addr {addr : Ipv4Addr} (h : readIpv4Addr text = some (addr, rest)) :
    Took text rest := by
  simp only [readIpv4Addr, Option.bind_eq_some_iff, Option.map_eq_some_iff] at h
  obtain ⟨⟨a, resta⟩, ha, ⟨b, restb⟩, hb, ⟨c, restc⟩, hc, ⟨d, restd⟩, hd, heq⟩ := h
  cases heq
  exact (took_readOctet ha).trans ((took_readOctet hb).trans
    ((took_readOctet hc).trans (took_readOctet hd)))

theorem took_readGroups {left : ℕ} :
    ∀ (index : ℕ) (text : Text), Took text (readGroups left index text).2 := by
  induction left with
  | zero => exact fun _ text => Took.refl text
  | succ left ih =>
    intro index text
    rw [readGroups]
    split
    · rename_i v4 rest hv4
      split at hv4
      · exact took_readSeparator (by decide) took_readIpv4Addr hv4
      · cases hv4
    · split
      · rename_i group rest hgroup
        have hfirst := took_readSeparator (by decide)
          (fun h => took_readNumber (by decide) h) hgroup
        exact hfirst.trans (ih (index + 1) rest)
      · exact Took.refl text

theorem took_readIpv6Addr {addr : Ipv6Addr} (h : readIpv6Addr text = some (addr, rest)) :
    Took text rest := by
  have hhead := @took_readGroups 8 0 text
  simp only [readIpv6Addr] at h
  split at h
  · cases h
    exact hhead
  · split at h
    · cases h
    · simp only [Option.bind_eq_some_iff, Option.map_eq_some_iff] at h
      obtain ⟨⟨_, first⟩, hfirst, ⟨_, second⟩, hsecond, heq⟩ := h
      cases heq
      exact hhead.trans ((took_readGivenChar (by decide) hfirst).trans
        ((took_readGivenChar (by decide) hsecond).trans (took_readGroups 0 second)))

theorem took_readIpAddr {addr : IpAddr} (h : readIpAddr text = some (addr, rest)) :
    Took text rest := by
  rw [readIpAddr] at h
  split at h
  · rename_i hv4
    cases h
    exact took_readIpv4Addr hv4
  · obtain ⟨⟨found, rest'⟩, hv6, heq⟩ := Option.map_eq_some_iff.mp h
    cases heq
    exact took_readIpv6Addr hv6

theorem parseWith_eq_some {reader : Reader α} {value : α} :
    parseWith reader text = some value ↔ reader text = some (value, []) := by
  rw [parseWith]
  split
  · rename_i found hfound
    rw [hfound]
    simp
  · rename_i hnot
    simp only [reduceCtorEq, false_iff]
    exact fun h => hnot value h

theorem addressChar_of_parsed {addr : IpAddr} (h : parseIpAddr text = some addr) :
    ∀ ch ∈ text, addressChar ch = true := by
  obtain ⟨used, htext, hused⟩ := took_readIpAddr (parseWith_eq_some.mp h)
  rw [List.append_nil] at htext
  rw [htext]
  exact hused

theorem parseIpAddr_nil : parseIpAddr [] = none := by decide

theorem parseSocketAddr_of_parsed {addr : IpAddr} (h : parseIpAddr text = some addr) :
    parseSocketAddr text = none := by
  have hread := parseWith_eq_some.mp h
  have hv4 : readSocketAddrV4 text = none := by
    rw [readSocketAddrV4]
    rw [readIpAddr] at hread
    split at hread
    · rename_i found rest hfound
      cases hread
      rw [hfound]
      rfl
    · rename_i hnone
      rw [hnone]
      rfl
  have hv6 : readSocketAddrV6 text = none := by
    have hopened : readGivenChar '[' text = none := by
      unfold readGivenChar
      split
      · rename_i ch rest
        rw [if_neg]
        rintro rfl
        exact absurd (addressChar_of_parsed h '[' List.mem_cons_self) (by decide)
      · rfl
    rw [readSocketAddrV6, hopened]
    rfl
  rw [parseSocketAddr, parseWith, readSocketAddr, hv4, hv6]
  rfl

end Characters

end IpAddresses
