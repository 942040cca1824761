import PraxisAi.SaturatingArithmetic
import Mathlib.Data.Nat.Digits.Defs

/-! # Unsigned integers as text

Decimal formatting and the checked parser of 64-bit unsigned integers. Parsing gives back what
was formatted. -/
namespace DecimalText

open List
open SaturatingArithmetic

def decimal (n : ℕ) : List Char := Nat.toDigits 10 n

def digitValue (ch : Char) : Option ℕ := if ch.isDigit then some (ch.toNat - 48) else none

/-- Digits are accumulated until the value no longer fits. -/
def parseDigits : ℕ → List Char → Option ℕ
  | acc, [] => some acc
  | acc, ch :: rest =>
    match digitValue ch with
    | none => none
    | some d => if acc * 10 + d ≤ u64Max then parseDigits (acc * 10 + d) rest else none

/-- An optional plus sign and at least one digit. -/
def parseU64 (text : List Char) : Option ℕ :=
  let digits := if text.head? = some '+' then text.tail else text
  if digits = [] then none else parseDigits 0 digits

def splitOnce (sep : Char) : List Char → Option (List Char × List Char)
  | [] => none
  | ch :: rest =>
    if ch = sep then some ([], rest) else (splitOnce sep rest).map fun p => (ch :: p.1, p.2)

def hexText (width n : ℕ) : String :=
  let digits := Nat.toDigits 16 n
  String.ofList (List.replicate (width - digits.length) '0' ++ digits)

theorem decimal_eq (n : ℕ) :
    decimal n = (if n < 10 then [] else decimal (n / 10)) ++ [Nat.digitChar (n % 10)] := by
  simp only [decimal]
  rw [Nat.toDigits_eq_if (by omega)]
  split
  · next h => simp [Nat.mod_eq_of_lt h]
  · rfl

theorem isDigit_digitChar {d : ℕ} (h : d < 10) : (Nat.digitChar d).isDigit = true := by
  revert d
  decide

theorem digitValue_digitChar {d : ℕ} (h : d < 10) : digitValue (Nat.digitChar d) = some d := by
  revert d
  decide

theorem toNat_digitChar {d : ℕ} (h : d < 10) : (Nat.digitChar d).toNat - 48 = d := by
  revert d
  decide

theorem foldl_decimal (n : ℕ) :
    (decimal n).foldl (fun v ch => v * 10 + (ch.toNat - 48)) 0 = n := by
  induction n using Nat.strongRecOn with
  | ind n ih =>
    rw [decimal_eq, foldl_append, foldl_cons, foldl_nil, toNat_digitChar (Nat.mod_lt n (by decide))]
    split
    · rename_i hsmall
      rw [foldl_nil, Nat.zero_mul, Nat.zero_add, Nat.mod_eq_of_lt hsmall]
    · rename_i hlarge
      rw [ih (n / 10) (by omega)]
      exact Nat.div_add_mod' n 10

theorem isDigit_of_mem_decimal {n : ℕ} {ch : Char} (h : ch ∈ decimal n) : ch.isDigit = true := by
  induction n using Nat.strong_induction_on with
  | _ n ih =>
    rw [decimal_eq, mem_append] at h
    rcases h with h | h
    · split at h
      · cases h
      · next hlarge => exact ih (n / 10) (by omega) h
    · rw [mem_singleton] at h
      subst h
      exact isDigit_digitChar (Nat.mod_lt _ (by omega))

theorem decimal_ne_nil (n : ℕ) : decimal n ≠ [] := by
  rw [decimal_eq]
  simp

theorem parseDigits_append (acc : ℕ) (l : List Char) (ch : Char) :
    parseDigits acc (l ++ [ch]) = (parseDigits acc l).bind fun v => parseDigits v [ch] := by
  induction l generalizing acc with
  | nil => rfl
  | cons c l ih =>
    simp only [cons_append, parseDigits]
    split
    · rfl
    · split
      · exact ih _
      · rfl

theorem parseDigits_decimal {n : ℕ} (h : n ≤ u64Max) : parseDigits 0 (decimal n) = some n := by
  induction n using Nat.strong_induction_on with
  | _ n ih =>
    have hdigit := digitValue_digitChar (Nat.mod_lt n (by omega : 0 < 10))
    have hhead : parseDigits 0 (if n < 10 then [] else decimal (n / 10)) = some (n / 10) := by
      split
      · next hsmall => simp [parseDigits, Nat.div_eq_of_lt hsmall]
      · exact ih (n / 10) (by omega) (by omega)
    have hvalue : n / 10 * 10 + n % 10 = n := by omega
    rw [decimal_eq, parseDigits_append, hhead]
    simp only [Option.bind_some, parseDigits, hdigit, hvalue, h, if_true]

theorem parseU64_decimal {n : ℕ} (h : n ≤ u64Max) : parseU64 (decimal n) = some n := by
  have hplus : (decimal n).head? ≠ some '+' := by
    intro hhead
    have hdigit := isDigit_of_mem_decimal (mem_of_head? hhead)
    exact absurd hdigit (by decide)
  simp only [parseU64, hplus, if_false, decimal_ne_nil]
  exact parseDigits_decimal h

theorem splitOnce_append {sep : Char} {l : List Char} (h : sep ∉ l) (rest : List Char) :
    splitOnce sep (l ++ sep :: rest) = some (l, rest) := by
  induction l with
  | nil => simp [splitOnce]
  | cons ch l ih =>
    rw [mem_cons, not_or] at h
    simp only [cons_append, splitOnce, Ne.symm h.1, if_false, ih h.2, Option.map_some]

theorem not_mem_decimal {s : Char} (h : s.isDigit = false) (n : ℕ) : s ∉ decimal n := by
  intro hmem
  rw [isDigit_of_mem_decimal hmem] at h
  cases h

def hexValue (digits : List Char) : ℕ :=
  digits.foldl (fun v ch => v * 16 + if ch.isDigit then ch.toNat - 48 else ch.toNat - 87) 0

theorem length_hexText_byte : ∀ n < 256, (hexText 2 n).toList.length = 2 := by
  simp only [hexText, String.toList_ofList]
  decide +kernel

theorem hexValue_hexText_byte : ∀ n < 256, hexValue (hexText 2 n).toList = n := by
  simp only [hexText, String.toList_ofList]
  decide +kernel

theorem toList_join_hexText (bytes : List UInt8) :
    (String.join (bytes.map fun byte => hexText 2 byte.toNat)).toList =
      bytes.flatMap fun byte => (hexText 2 byte.toNat).toList := by
  rw [String.toList_join, flatMap_map]

theorem length_flatMap_hexText (bytes : List UInt8) :
    (bytes.flatMap fun byte => (hexText 2 byte.toNat).toList).length = 2 * bytes.length := by
  induction bytes with
  | nil => rfl
  | cons byte rest ih =>
    rw [flatMap_cons, length_append, length_hexText_byte _ byte.toNat_lt, ih, length_cons]
    omega

theorem join_hexText_injective {a b : List UInt8}
    (h : String.join (a.map fun byte => hexText 2 byte.toNat) =
      String.join (b.map fun byte => hexText 2 byte.toNat)) : a = b := by
  have htexts := congrArg String.toList h
  rw [toList_join_hexText, toList_join_hexText] at htexts
  clear h
  induction a generalizing b with
  | nil =>
    have hlength := congrArg List.length htexts
    rw [length_flatMap_hexText, length_flatMap_hexText, length_nil] at hlength
    exact (length_eq_zero_iff.mp (by omega)).symm
  | cons byte rest ih =>
    cases b with
    | nil =>
      have hlength := congrArg List.length htexts
      rw [length_flatMap_hexText, length_flatMap_hexText, length_cons] at hlength
      simp only [length_nil] at hlength
      omega
    | cons other more =>
      rw [flatMap_cons, flatMap_cons] at htexts
      obtain ⟨hhead, htail⟩ := append_inj htexts
        ((length_hexText_byte _ byte.toNat_lt).trans (length_hexText_byte _ other.toNat_lt).symm)
      have hbyte : byte.toNat = other.toNat := by
        rw [← hexValue_hexText_byte _ byte.toNat_lt, hhead, hexValue_hexText_byte _ other.toNat_lt]
      rw [ih htail, UInt8.toNat_inj.mp hbyte]

end DecimalText
