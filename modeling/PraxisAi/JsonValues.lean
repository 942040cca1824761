import Mathlib.Algebra.BigOperators.Group.List.Basic
import Mathlib.Data.String.Basic
import Mathlib.Data.Nat.Digits.Lemmas

/-! # JSON values and their compact text

Objects keep the order in which their fields were inserted. The text has no blanks; strings
escape quotes, backslashes and control characters. -/
namespace JsonValues

open List

inductive Json where
  | null
  | bool (value : Bool)
  | num (text : String)
  | str (value : String)
  | arr (items : List Json)
  | obj (fields : List (String × Json))

namespace Json

def ofNat (n : ℕ) : Json := .num n.repr

def get? (key : String) : Json → Option Json
  | .obj fields => fields.lookup key
  | _ => none

def item? (i : ℕ) : Json → Option Json
  | .arr items => items[i]?
  | _ => none

def asStr : Json → Option String
  | .str s => some s
  | _ => none

def asArr : Json → Option (List Json)
  | .arr items => some items
  | _ => none

/-- An existing field keeps its place. -/
def setField (key : String) (value : Json) : List (String × Json) → List (String × Json)
  | [] => [(key, value)]
  | (k, old) :: rest =>
    if k = key then (k, value) :: rest else (k, old) :: setField key value rest

/-- Nothing happens to a value that is not an object. -/
def insert (j : Json) (key : String) (value : Json) : Json :=
  match j with
  | .obj fields => .obj (setField key value fields)
  | j => j

def asObj : Json → Option (List (String × Json))
  | .obj fields => some fields
  | _ => none

theorem lookup_setField (key : String) (value : Json) (fields : List (String × Json)) :
    (setField key value fields).lookup key = some value := by
  induction fields with
  | nil => simp [setField]
  | cons field rest ih =>
    obtain ⟨k, old⟩ := field
    rw [setField]
    split
    · rename_i hk
      simp [hk]
    · rename_i hk
      rw [lookup_cons, beq_eq_false_iff_ne.mpr (Ne.symm hk)]
      exact ih

theorem lookup_setField_of_ne {key other : String} (hne : other ≠ key) (value : Json)
    (fields : List (String × Json)) :
    (setField key value fields).lookup other = fields.lookup other := by
  induction fields with
  | nil => simp [setField, hne]
  | cons field rest ih =>
    obtain ⟨k, old⟩ := field
    rw [setField]
    split
    · rename_i hk
      rw [lookup_cons, lookup_cons, beq_eq_false_iff_ne.mpr (hk ▸ hne)]
    · rw [lookup_cons, lookup_cons, ih]

theorem get?_insert (fields : List (String × Json)) (key : String) (value : Json) :
    ((Json.obj fields).insert key value).get? key = some value :=
  lookup_setField key value fields

theorem get?_insert_of_ne {key other : String} (hne : other ≠ key) (j value : Json) :
    (j.insert key value).get? other = j.get? other := by
  cases j with
  | obj fields => exact lookup_setField_of_ne hne value fields
  | _ => rfl

theorem lookup_eq_some {α : Type} {fields : List (String × α)} (h : (fields.map Prod.fst).Nodup)
    {key : String} {value : α} : fields.lookup key = some value ↔ (key, value) ∈ fields := by
  induction fields with
  | nil => simp
  | cons field rest ih =>
    obtain ⟨k, old⟩ := field
    rw [map_cons, nodup_cons] at h
    rw [lookup_cons, mem_cons]
    by_cases hk : key = k
    · subst hk
      have habsent : (key, value) ∉ rest := fun hmem =>
        h.1 (mem_map.mpr ⟨(key, value), hmem, rfl⟩)
      simp only [beq_self_eq_true, Option.some.injEq, Prod.mk.injEq, true_and, habsent, or_false]
      exact eq_comm
    · simp only [beq_false_of_ne hk, ih h.2, Prod.mk.injEq, hk, false_and, false_or]

theorem mem_keys_setField {key other : String} {value : Json} {fields : List (String × Json)} :
    other ∈ (setField key value fields).map Prod.fst ↔
      other = key ∨ other ∈ fields.map Prod.fst := by
  induction fields with
  | nil => simp [setField]
  | cons field rest ih =>
    obtain ⟨k, old⟩ := field
    rw [setField]
    split
    · rename_i hk
      simp only [map_cons, mem_cons, hk]
      tauto
    · simp only [map_cons, mem_cons, ih]
      tauto

theorem nodup_setField {key : String} {value : Json} {fields : List (String × Json)}
    (h : (fields.map Prod.fst).Nodup) : ((setField key value fields).map Prod.fst).Nodup := by
  induction fields with
  | nil => simp [setField]
  | cons field rest ih =>
    obtain ⟨k, old⟩ := field
    rw [map_cons, nodup_cons] at h
    rw [setField]
    split
    · exact nodup_cons.mpr h
    · rename_i hk
      rw [map_cons, nodup_cons, mem_keys_setField]
      exact ⟨fun hmem => hmem.elim hk h.1, ih h.2⟩

section Setting

variable {key other : String} {value old : Json} {fields : List (String × Json)}

theorem setField_eq_self : setField key value fields = fields ↔
    fields.lookup key = some value := by
  induction fields with
  | nil => simp [setField]
  | cons field rest ih =>
    obtain ⟨k, old⟩ := field
    rw [setField, lookup_cons]
    by_cases hk : k = key
    · subst hk
      simp [eq_comm]
    · rw [if_neg hk, beq_eq_false_iff_ne.mpr (Ne.symm hk), List.cons.injEq, ih]
      simp

theorem setField_setField :
    setField key value (setField key old fields) = setField key value fields := by
  induction fields with
  | nil => simp [setField]
  | cons field rest ih =>
    obtain ⟨k, old⟩ := field
    by_cases hk : k = key
    · simp [setField, hk]
    · simp [setField, hk, ih]

theorem setField_comm (hne : key ≠ other) (h : fields.lookup key ≠ none) :
    setField key value (setField other old fields) =
      setField other old (setField key value fields) := by
  induction fields with
  | nil => exact absurd rfl h
  | cons field rest ih =>
    obtain ⟨k, v⟩ := field
    by_cases hk : k = key
    · subst hk
      simp [setField, hne]
    · rw [lookup_cons, beq_eq_false_iff_ne.mpr (Ne.symm hk)] at h
      by_cases ho : k = other
      · subst ho
        simp [setField, hk]
      · simp [setField, hk, ho, ih h]

end Setting

def hexDigit (n : ℕ) : Char := Nat.digitChar n

def escapeChar (c : Char) : String :=
  if c = '"' then "\\\""
  else if c = '\\' then "\\\\"
  else if c = '\x08' then "\\b"
  else if c = '\t' then "\\t"
  else if c = '\n' then "\\n"
  else if c = '\x0c' then "\\f"
  else if c = '\r' then "\\r"
  else if c.toNat < 32 then
    "\\u00" ++ (hexDigit (c.toNat / 16)).toString ++ (hexDigit (c.toNat % 16)).toString
  else c.toString

def escape : List Char → String
  | [] => ""
  | c :: cs => escapeChar c ++ escape cs

def quote (s : String) : String := "\"" ++ escape s.toList ++ "\""

mutual

def text : Json → String
  | .null => "null"
  | .bool true => "true"
  | .bool false => "false"
  | .num text => text
  | .str s => quote s
  | .arr items => "[" ++ itemsText items ++ "]"
  | .obj fields => "\x7b" ++ fieldsText fields ++ "\x7d"

def itemsText : List Json → String
  | [] => ""
  | [j] => text j
  | j :: rest => text j ++ "," ++ itemsText rest

def fieldsText : List (String × Json) → String
  | [] => ""
  | [(k, j)] => quote k ++ ":" ++ text j
  | (k, j) :: rest => quote k ++ ":" ++ text j ++ "," ++ fieldsText rest

end

def size (j : Json) : ℕ := j.text.utf8ByteSize

def quotedSize (s : String) : ℕ := (quote s).utf8ByteSize

def fieldSize (field : String × Json) : ℕ := quotedSize field.1 + 1 + size field.2

theorem size_str (s : String) : size (.str s) = quotedSize s := rfl

theorem fieldsText_size (field : String × Json) (rest : List (String × Json)) :
    (fieldsText (field :: rest)).utf8ByteSize =
      fieldSize field + (rest.map fun f => fieldSize f + 1).sum := by
  induction rest generalizing field with
  | nil =>
    simp only [fieldsText, String.utf8ByteSize_append, fieldSize, quotedSize, size]
    rfl
  | cons next rest ih =>
    have hcomma : ",".utf8ByteSize = 1 := rfl
    have hcolon : ":".utf8ByteSize = 1 := rfl
    simp only [fieldsText, String.utf8ByteSize_append, ih, fieldSize, quotedSize, size, hcomma,
      hcolon, map_cons, sum_cons]
    omega

theorem size_obj (field : String × Json) (rest : List (String × Json)) :
    size (.obj (field :: rest)) =
      fieldSize field + (rest.map fun f => fieldSize f + 1).sum + 2 := by
  have hbraces : "\x7b".utf8ByteSize = 1 ∧ "\x7d".utf8ByteSize = 1 := ⟨rfl, rfl⟩
  rw [size, text, String.utf8ByteSize_append, String.utf8ByteSize_append, fieldsText_size,
    hbraces.1, hbraces.2]
  omega

end Json

end JsonValues
