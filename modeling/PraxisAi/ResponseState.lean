import PraxisAi.FiniteTranslation
import PraxisAi.KeyedMaps

/-! # Request-scoped state of a Responses exchange

What the filters of one exchange share of its items: their fields and types, the tools of the client
as they were lowered, and how the usage of its rounds is added up. -/
namespace ResponseState

open List
open JsonValues KeyedMaps

section Fields

def strField (key : String) (j : Json) : Option String := (j.get? key).bind Json.asStr

def itemType (item : Json) : Option String := strField "type" item

def itemId (item : Json) : Option String := strField "id" item

/-- With insertion order kept, the last field takes the place of the removed one. -/
def removeField (key : String) (fields : List (String × Json)) : List (String × Json) :=
  match fields.findIdx? fun field => field.1 == key with
  | none => fields
  | some i => (fields.set i (fields.getLast?.getD (key, .null))).dropLast

def remove (j : Json) (key : String) : Json :=
  match j with
  | .obj fields => .obj (removeField key fields)
  | j => j

def isNull : Json → Bool
  | .null => true
  | _ => false

def UniqueKeys : Json → Prop
  | .obj fields => (fields.map Prod.fst).Nodup
  | _ => True

theorem removeField_cases (key : String) (fields : List (String × Json)) :
    fields.lookup key = none ∧ removeField key fields = fields ∨
      ∃ front value rest, fields = front ++ (key, value) :: rest ∧
        (removeField key fields).Perm (front ++ rest) := by
  rcases hfind : fields.findIdx? (fun field => field.1 == key) with _ | i
  · refine .inl ⟨?_, by rw [removeField, hfind]⟩
    rw [List.lookup_eq_none_iff]
    intro field hfield
    rw [bne_iff_ne]
    exact fun heq => absurd (findIdx?_eq_none_iff.mp hfind field hfield) (by simp [heq])
  · refine .inr ?_
    obtain ⟨hi, hkey, -⟩ := findIdx?_eq_some_iff_getElem.mp hfind
    have hsplit : fields = fields.take i ++ fields[i] :: fields.drop (i + 1) := by
      rw [getElem_cons_drop, take_append_drop]
    refine ⟨fields.take i, fields[i].2, fields.drop (i + 1), ?_, ?_⟩
    · rw [← beq_iff_eq.mp hkey]
      exact hsplit
    · rw [removeField, hfind]
      simp only []
      rw [set_eq_take_append_cons_drop, if_pos hi]
      -- the removed field is the last one, or the last one comes to stand in its place
      rcases eq_nil_or_concat (fields.drop (i + 1)) with hrest | ⟨rest, last, hrest⟩
      · rw [hrest, dropLast_concat, append_nil]
      · have hlast : fields.getLast? = some last := by
          rw [hsplit, hrest, concat_eq_append, getLast?_append, getLast?_cons]
          simp
        rw [hrest, hlast, concat_eq_append, Option.getD_some, ← cons_append,
          ← append_assoc, dropLast_concat]
        refine List.Perm.append_left _ ?_
        exact (perm_append_singleton last rest).symm

theorem lookup_removeField_of_ne {key other : String} (hne : other ≠ key)
    {fields : List (String × Json)} (h : (fields.map Prod.fst).Nodup) :
    (removeField key fields).lookup other = fields.lookup other := by
  rcases removeField_cases key fields with ⟨-, heq⟩ | ⟨front, value, rest, rfl, hperm⟩
  · rw [heq]
  · have hsub : (front ++ rest).Sublist (front ++ (key, value) :: rest) :=
      (sublist_cons_self _ _).append_left _
    have hkeys : ((removeField key (front ++ (key, value) :: rest)).map Prod.fst).Nodup :=
      (hperm.map Prod.fst).nodup_iff.mpr (h.sublist (hsub.map Prod.fst))
    refine Option.ext fun found => ?_
    rw [Json.lookup_eq_some hkeys, Json.lookup_eq_some h, hperm.mem_iff]
    simp only [mem_append, mem_cons, Prod.mk.injEq, hne, false_and, false_or]

theorem nodup_removeField {key : String} {fields : List (String × Json)}
    (h : (fields.map Prod.fst).Nodup) : ((removeField key fields).map Prod.fst).Nodup := by
  rcases removeField_cases key fields with ⟨-, heq⟩ | ⟨front, value, rest, rfl, hperm⟩
  · rwa [heq]
  · have hsub : (front ++ rest).Sublist (front ++ (key, value) :: rest) :=
      (sublist_cons_self _ _).append_left _
    exact (hperm.map Prod.fst).nodup_iff.mpr (h.sublist (hsub.map Prod.fst))

theorem UniqueKeys.insert {j : Json} (h : UniqueKeys j) (key : String) (value : Json) :
    UniqueKeys (j.insert key value) := by
  cases j with
  | obj fields => exact Json.nodup_setField h
  | _ => trivial

theorem UniqueKeys.remove {j : Json} (h : UniqueKeys j) (key : String) :
    UniqueKeys (remove j key) := by
  cases j with
  | obj fields => exact nodup_removeField h
  | _ => trivial

theorem UniqueKeys.get?_remove {j : Json} (h : UniqueKeys j) {key other : String}
    (hne : other ≠ key) : (ResponseState.remove j key).get? other = j.get? other := by
  cases j with
  | obj fields => exact lookup_removeField_of_ne hne h
  | _ => rfl

theorem UniqueKeys.get?_remove_self {j : Json} (h : UniqueKeys j) (key : String) :
    (ResponseState.remove j key).get? key = none := by
  cases j with
  | obj fields =>
    rcases removeField_cases key fields with ⟨hnone, heq⟩ | ⟨front, value, rest, rfl, hperm⟩
    · exact (congrArg (List.lookup key) heq).trans hnone
    · refine List.lookup_eq_none_iff.mpr fun field hfield => bne_iff_ne.mpr fun heq => ?_
      have hkeys : ((front ++ (key, value) :: rest).map Prod.fst).Nodup := h
      rw [map_append, map_cons] at hkeys
      apply (nodup_cons.mp (nodup_middle.mp hkeys)).1
      rw [← map_append]
      exact mem_map.mpr ⟨field, hperm.mem_iff.mp hfield, heq.symm⟩
  | _ => rfl

/-- An object of a type, which no change of another field takes from it. -/
structure TypedAs (kind : String) (item : Json) : Prop where
  keys : UniqueKeys item
  type : itemType item = some kind

theorem TypedAs.insert {kind : String} {item : Json} (h : TypedAs kind item) {key : String}
    (hne : "type" ≠ key) (value : Json) : TypedAs kind (item.insert key value) := by
  refine ⟨h.keys.insert key value, ?_⟩
  rw [itemType, strField, Json.get?_insert_of_ne hne]
  exact h.type

theorem TypedAs.remove {kind : String} {item : Json} (h : TypedAs kind item) {key : String}
    (hne : "type" ≠ key) : TypedAs kind (ResponseState.remove item key) := by
  refine ⟨h.keys.remove key, ?_⟩
  rw [itemType, strField, h.keys.get?_remove hne]
  exact h.type

theorem isObject_of_type {item : Json} {kind : String} (h : itemType item = some kind) :
    ∃ fields, item = .obj fields := by
  cases item with
  | obj fields => exact ⟨fields, rfl⟩
  | _ => cases h

end Fields

inductive ClientToolRestore where
  | custom
  | namespaceMember
  | namespaceCustom
  | shell
  | toolSearch
  deriving DecidableEq

structure LoweredClientTool where
  originalName : String
  namespaceName : Option String
  restore : ClientToolRestore
  deriving DecidableEq

structure ClientToolEcho where
  tools : List Json
  toolChoice : Json

structure ResponsesState where
  clientToolEcho : Option ClientToolEcho := none
  clientToolLowering : KeyedMap String LoweredClientTool := ∅
  messages : List Json := []

/-- The longest name of a function that a provider takes. -/
def maxFunctionNameLen : ℕ := 64

section Classes

def isClientExecutedToolCall (item : Json) : Bool :=
  match itemType item with
  | some "apply_patch_call" | some "computer_call" | some "custom_tool_call"
  | some "local_shell_call" => true
  | some "shell_call" => (item.get? "environment").bind (strField "type") == some "local"
  | some "tool_search_call" => strField "execution" item == some "client"
  | _ => false

end Classes

section Usage

open FiniteTranslation SaturatingArithmetic

mutual

/-- Unsigned integers are added, objects merged field by field; anything else is replaced. -/
def mergeUsage (accumulated : Json) : Json → Json
  | .obj current =>
    match accumulated with
    | .obj fields => .obj (mergeFields fields current)
    | _ => .obj current
  | .num current =>
    match asU64 accumulated, asU64 (.num current) with
    | some left, some right => .ofNat (satAdd u64Max left right)
    | _, _ => .num current
  | current => current

def mergeFields (fields : List (String × Json)) : List (String × Json) → List (String × Json)
  | [] => fields
  | (key, value) :: rest =>
    match fields.lookup key with
    | some existing => mergeFields (Json.setField key (mergeUsage existing value) fields) rest
    | none => mergeFields (fields ++ [(key, value)]) rest

end

end Usage

end ResponseState
