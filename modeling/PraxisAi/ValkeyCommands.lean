import PraxisAi.ExpiringKeys
import PraxisAi.DecimalText
import PraxisAi.KeyedMaps
import PraxisAi.StateBackend

/-! # The commands the Valkey backends are built from

Sorted sets with an expiry as the server documents them, and the helpers of
`token_rate_limit/valkey/mod.rs`. Every command runs at a time of the server's clock. -/
namespace ValkeyCommands

open ExpiringKeys DecimalText KeyedMaps SaturatingArithmetic StateBackend

section SortedSets

variable {μ : Type} [DecidableEq μ]

abbrev SortedSet (μ : Type) := KeyedMap μ ℕ

def members (t : ℕ) (slot : Option (Slot (SortedSet μ))) : SortedSet μ :=
  match visible t slot with
  | none => ∅
  | some s => s.value

def zcard (t : ℕ) (slot : Option (Slot (SortedSet μ))) : ℕ := (members t slot).keys.length

def zscore (t : ℕ) (member : μ) (slot : Option (Slot (SortedSet μ))) : Option ℕ :=
  (members t slot).lookup member

/-- A set that loses its last member is deleted, its expiry with it. -/
def withMembers (t : ℕ) (kept : SortedSet μ) (slot : Option (Slot (SortedSet μ))) :
    Option (Slot (SortedSet μ)) :=
  if kept.entries.isEmpty then none else some (rewrite t kept slot)

def zremrangebyscore (t upTo : ℕ) (slot : Option (Slot (SortedSet μ))) :
    Option (Slot (SortedSet μ)) :=
  let gone := ((members t slot).entries.filter fun e => e.2 ≤ upTo).map (·.1)
  withMembers t (eraseAll gone (members t slot)) slot

def zrem (t : ℕ) (member : μ) (slot : Option (Slot (SortedSet μ))) :
    Option (Slot (SortedSet μ)) :=
  withMembers t ((members t slot).erase member) slot

def zadd (t score : ℕ) (member : μ) (slot : Option (Slot (SortedSet μ))) : Slot (SortedSet μ) :=
  rewrite t ((members t slot).insert member score) slot

/-- With `GT` a member's score is only ever raised. -/
def zaddGt (t score : ℕ) (member : μ) (slot : Option (Slot (SortedSet μ))) :
    Slot (SortedSet μ) :=
  match zscore t member slot with
  | some old => if old < score then zadd t score member slot else zadd t old member slot
  | none => zadd t score member slot

end SortedSets

section Integers

def i64Max : ℕ := 2 ^ 63 - 1

/-- `i64::try_from`, or the largest value. -/
def toI64 (n : ℕ) : ℤ := min n i64Max

def clampI64 (n : ℤ) : ℤ := max (min n i64Max) (-2 ^ 63)

/-- `INCRBY`: an absent key counts as zero, and a result that does not fit is refused. -/
def incrBy (t : ℕ) (delta : ℤ) (slot : Option (Slot ℤ)) : Option (Slot ℤ) :=
  let value := ((visible t slot).map Slot.value).getD 0 + delta
  if -2 ^ 63 ≤ value ∧ value ≤ i64Max then some (rewrite t value slot) else none

theorem toI64_of_le {n : ℕ} (h : n ≤ i64Max) : toI64 n = n := by
  simp only [toI64]
  omega

end Integers

def commandError (text : String) : BackendError := .unavailable ("Valkey command: " ++ text)

/-- `PEXPIRE NX`, then `PEXPIRE GT`. -/
def extendSharedTtl {ν : Type} (t ttlMs : ℕ) (s : Slot ν) : Slot ν := extend t ttlMs s

def formatReservation (estimate admittedAtMs : ℕ) : List Char :=
  decimal estimate ++ '|' :: decimal admittedAtMs

def parseReservation (value : List Char) : Except BackendError (ℕ × ℕ) :=
  match splitOnce '|' value with
  | none => .error .invalidResponse
  | some (estimate, admittedAt) =>
    match parseU64 estimate, parseU64 admittedAt with
    | some estimate, some admittedAt => .ok (estimate, admittedAt)
    | _, _ => .error .invalidResponse

theorem parseReservation_format {estimate admittedAtMs : ℕ} (he : estimate ≤ u64Max)
    (ha : admittedAtMs ≤ u64Max) :
    parseReservation (formatReservation estimate admittedAtMs) = .ok (estimate, admittedAtMs) := by
  have hsplit := splitOnce_append (not_mem_decimal (s := '|') (by decide) estimate)
    (decimal admittedAtMs)
  simp only [parseReservation, formatReservation, hsplit, parseU64_decimal he, parseU64_decimal ha]

end ValkeyCommands
