import PraxisAi.JsonValues
import Mathlib.Data.List.Nodup
import Mathlib.Data.List.Perm.Subperm
import Mathlib.Data.Rat.Defs

/-! # Comparing a JSON text with a value while reading it

The comparison follows the deserializer through the text and keeps a verdict for every expected
member instead of the value. What it has to agree with is the value that decoding the same text
gives. Decoding has one exception of its own: an object whose first name is the deserializer's
private one stands for the value that its text holds. -/
namespace StreamedComparison

open List
open JsonValues.Json (lookup_eq_some)

section Texts

/-- The three kinds of numbers. Floats are finite, and both zeros are equal. -/
inductive Number where
  | posInt (value : ℕ)
  | negInt (value : ℤ)
  | float (value : ℚ)
  deriving DecidableEq

/-- What the deserializer reports of a text. A name may stand in an object more than once. -/
inductive Raw where
  | null
  | bool (value : Bool)
  | num (value : Number)
  | str (value : String)
  | arr (items : List Raw)
  | obj (members : List (String × Raw))

inductive Value where
  | null
  | bool (value : Bool)
  | num (value : Number)
  | str (value : String)
  | arr (items : List Value)
  | obj (fields : List (String × Value))

abbrev Fields := List (String × Value)

def Value.asArr : Value → Option (List Value)
  | .arr items => some items
  | _ => none

def Value.asObj : Value → Option Fields
  | .obj fields => some fields
  | _ => none

inductive Value.Keyed : Value → Prop
  | null : Keyed .null
  | bool (value : Bool) : Keyed (.bool value)
  | num (value : Number) : Keyed (.num value)
  | str (value : String) : Keyed (.str value)
  | arr {items : List Value} (items_keyed : ∀ item ∈ items, Keyed item) : Keyed (.arr items)
  | obj {fields : Fields} (unique : (fields.map Prod.fst).Nodup)
      (fields_keyed : ∀ field ∈ fields, Keyed field.2) : Keyed (.obj fields)

mutual

def Value.same : Value → Value → Bool
  | .null, .null => true
  | .bool a, .bool b => a == b
  | .num a, .num b => a == b
  | .str a, .str b => a == b
  | .arr items, .arr items' => sameItems items items'
  | .obj fields, .obj fields' => fields.length == fields'.length && sameFields fields fields'
  | _, _ => false

def sameItems : List Value → List Value → Bool
  | [], [] => true
  | item :: rest, item' :: rest' => item.same item' && sameItems rest rest'
  | _, _ => false

def sameFields : Fields → Fields → Bool
  | [], _ => true
  | (key, value) :: rest, fields =>
    (match fields.lookup key with
    | some value' => value.same value'
    | none => false) && sameFields rest fields

end

end Texts

section Decoding

/-- A key that is there keeps its place and gets the new value. -/
def put (key : String) (value : Value) : Fields → Fields
  | [] => [(key, value)]
  | (k, old) :: rest => if k = key then (k, value) :: rest else (k, old) :: put key value rest

def privateName : String := "$serde_json::private::RawValue"

/-- Only the first name is looked at. -/
def isPrivate (members : List (String × Raw)) : Bool :=
  members.head?.any fun member => member.1 == privateName

def privateText : List (String × Raw) → Option String
  | [(_, .str text)] => some text
  | _ => none

variable (unwrap : String → Option Value)

mutual

/-- The value of a text; `unwrap` decodes the text in an object with the private name. -/
def decode : Raw → Option Value
  | .null => some .null
  | .bool value => some (.bool value)
  | .num value => some (.num value)
  | .str value => some (.str value)
  | .arr items => (decodeItems items).map .arr
  | .obj members =>
    if isPrivate members then (privateText members).bind unwrap
    else (decodeMembers [] members).map .obj

def decodeItems : List Raw → Option (List Value)
  | [] => some []
  | item :: rest => (decode item).bind fun value => (decodeItems rest).map (value :: ·)

def decodeMembers (fields : Fields) : List (String × Raw) → Option Fields
  | [] => some fields
  | (key, raw) :: rest =>
    (decode raw).bind fun value => decodeMembers (put key value fields) rest

end

end Decoding

section Comparison

def findMember (key : String) (fields : Fields) : Option (ℕ × Value) :=
  (fields.zipIdx.find? fun field => field.1.1 == key).map fun field => (field.2, field.1.2)

mutual

/-- The visitor. Without an expected value the text is only read. -/
def matchesRaw (expected : Option Value) : Raw → Bool
  | .null =>
    match expected with
    | some .null => true
    | _ => false
  | .bool value =>
    match expected with
    | some (.bool wanted) => wanted == value
    | _ => false
  | .num value =>
    match expected with
    | some (.num wanted) => wanted == value
    | _ => false
  | .str value =>
    match expected with
    | some (.str wanted) => wanted == value
    | _ => false
  | .arr items =>
    let wanted := expected.bind Value.asArr
    let visited := visitSeq wanted 0 wanted.isSome items
    visited.1 && wanted.any fun wanted => wanted.length == visited.2
  | .obj members =>
    match expected.bind Value.asObj with
    | none => false
    | some fields =>
      let visited := visitMap fields (List.replicate fields.length false) false members
      !visited.2 && visited.1.all id

def visitSeq (wanted : Option (List Value)) (index : ℕ) (matched : Bool) : List Raw → Bool × ℕ
  | [] => (matched, index)
  | item :: rest =>
    visitSeq wanted (index + 1)
      (matched && matchesRaw (wanted.bind fun wanted => wanted[index]?) item) rest

/-- The verdicts of the expected fields, and whether another name was met. -/
def visitMap (fields : Fields) (slots : List Bool) (extra : Bool) :
    List (String × Raw) → List Bool × Bool
  | [] => (slots, extra)
  | (key, raw) :: rest =>
    match findMember key fields with
    | some (index, value) =>
      visitMap fields (slots.set index (matchesRaw (some value) raw)) extra rest
    | none => visitMap fields slots true rest

end

def privateObject : String := "\x7b\"$serde_json::private::RawValue\":\"null\"\x7d"

/-- The deserializer: how it reads a text, and that it reads the text of a private object again. -/
structure Deserializer where
  parse : String → Option Raw
  unwrap : String → Option Value
  unwrap_eq : ∀ text, unwrap text = (parse text).bind (decode unwrap)
  null_text : parse "null" = some .null
  private_text : parse privateObject = some (.obj [(privateName, .str "null")])

def Deserializer.decoded (d : Deserializer) (text : String) : Option Value :=
  (d.parse text).bind (decode d.unwrap)

def Deserializer.equal (d : Deserializer) (text : String) (expected : Value) : Option Bool :=
  (d.parse text).map (matchesRaw (some expected))

end Comparison

section Trees

/-- Induction over a text, with a hypothesis for every item and every member. -/
theorem Raw.induct {P : Raw → Prop} (null : P .null) (bool : ∀ value, P (.bool value))
    (num : ∀ value, P (.num value)) (str : ∀ value, P (.str value))
    (arr : ∀ items, (∀ item ∈ items, P item) → P (.arr items))
    (obj : ∀ members : List (String × Raw), (∀ member ∈ members, P member.2) → P (.obj members)) :
    ∀ raw, P raw
  | .null => null
  | .bool value => bool value
  | .num value => num value
  | .str value => str value
  | .arr items => arr items fun item _ => Raw.induct null bool num str arr obj item
  | .obj members => obj members fun member _ => Raw.induct null bool num str arr obj member.2
termination_by raw => sizeOf raw
decreasing_by
  · rename_i hitem
    have := sizeOf_lt_of_mem hitem
    simp only [Raw.arr.sizeOf_spec]
    omega
  · rename_i hmember
    have := sizeOf_lt_of_mem hmember
    obtain ⟨key, raw⟩ := member
    simp only [Raw.obj.sizeOf_spec, Prod.mk.sizeOf_spec] at this ⊢
    omega

inductive Raw.Plain : Raw → Prop
  | null : Plain .null
  | bool (value : Bool) : Plain (.bool value)
  | num (value : Number) : Plain (.num value)
  | str (value : String) : Plain (.str value)
  | arr {items : List Raw} (items_plain : ∀ item ∈ items, Plain item) : Plain (.arr items)
  | obj {members : List (String × Raw)} (ordinary : isPrivate members = false)
      (members_plain : ∀ member ∈ members, Plain member.2) : Plain (.obj members)

variable {fields : Fields}

theorem lookup_put (key : String) (value : Value) (fields : Fields) :
    (put key value fields).lookup key = some value := by
  induction fields with
  | nil => simp [put]
  | cons field rest ih =>
    rw [put]
    split_ifs with hkey
    · simp [hkey]
    · rw [lookup_cons, beq_false_of_ne (Ne.symm hkey)]
      exact ih

theorem lookup_put_of_ne {key other : String} (hne : other ≠ key) (value : Value)
    (fields : Fields) :
    (put key value fields).lookup other = fields.lookup other := by
  induction fields with
  | nil => simp [put, hne]
  | cons field rest ih =>
    rw [put]
    split_ifs with hkey
    · rw [lookup_cons, lookup_cons, beq_false_of_ne (hkey ▸ hne)]
    · rw [lookup_cons, lookup_cons, ih]

theorem mem_keys_put {key other : String} {value : Value} :
    other ∈ (put key value fields).map Prod.fst ↔ other = key ∨ other ∈ fields.map Prod.fst := by
  induction fields with
  | nil => simp [put]
  | cons field rest ih =>
    rw [put]
    split_ifs with hkey
    · simp only [map_cons, mem_cons, hkey]
      tauto
    · simp only [map_cons, mem_cons, ih]
      tauto

theorem nodup_put {key : String} {value : Value} (h : (fields.map Prod.fst).Nodup) :
    ((put key value fields).map Prod.fst).Nodup := by
  induction fields with
  | nil => simp [put]
  | cons field rest ih =>
    rw [map_cons, nodup_cons] at h
    rw [put]
    split_ifs with hkey
    · exact nodup_cons.mpr h
    · refine nodup_cons.mpr ⟨fun hmem => ?_, ih h.2⟩
      rcases mem_keys_put.mp hmem with heq | hmem
      · exact hkey heq
      · exact h.1 hmem

theorem findMember_eq_some {key : String} {index : ℕ} {value : Value}
    (hfind : findMember key fields = some (index, value)) :
    fields[index]? = some (key, value) := by
  obtain ⟨field, hfield, heq⟩ := Option.map_eq_some_iff.mp hfind
  have hkey := find?_some hfield
  have hmem := mem_zipIdx_iff_getElem?.mp (mem_of_find?_eq_some hfield)
  cases heq
  rw [hmem]
  exact congrArg some (Prod.ext (by simpa using hkey) rfl)

theorem findMember_eq_none {key : String} :
    findMember key fields = none ↔ key ∉ fields.map Prod.fst := by
  rw [findMember, Option.map_eq_none_iff, find?_eq_none]
  constructor
  · rintro hall hmem
    obtain ⟨field, hfield, rfl⟩ := mem_map.mp hmem
    obtain ⟨index, hindex⟩ := mem_iff_getElem?.mp hfield
    exact hall (field, index) (mem_zipIdx_iff_getElem?.mpr hindex) (beq_self_eq_true _)
  · rintro hnot ⟨field, index⟩ hmem hkey
    have hfield := mem_of_getElem? (mem_zipIdx_iff_getElem?.mp hmem)
    exact hnot (mem_map.mpr ⟨field, hfield, by simpa using hkey⟩)

end Trees

section LastOccurrence

def lastOf (key : String) : List (String × Raw) → Option Raw
  | [] => none
  | (k, raw) :: rest => (lastOf key rest).or (if k = key then some raw else none)

theorem mem_of_lastOf {key : String} {raw : Raw} {members : List (String × Raw)}
    (h : lastOf key members = some raw) : (key, raw) ∈ members := by
  induction members with
  | nil => simp [lastOf] at h
  | cons member rest ih =>
    rw [lastOf, Option.or_eq_some_iff] at h
    rcases h with h | ⟨-, h⟩
    · exact mem_cons_of_mem _ (ih h)
    · split_ifs at h with hkey
      cases h
      subst hkey
      exact mem_cons_self

theorem lastOf_isSome_iff {key : String} {members : List (String × Raw)} :
    (lastOf key members).isSome ↔ key ∈ members.map Prod.fst := by
  induction members with
  | nil => simp [lastOf]
  | cons member rest ih =>
    rw [lastOf, Option.isSome_or, Bool.or_eq_true, ih, map_cons, mem_cons, or_comm]
    split_ifs with hkey
    · simp [hkey]
    · simp [Ne.symm hkey]

variable {unwrap : String → Option Value}

/-- What the map holds after the members: the value of a name's last member, or what it held. -/
theorem decodeMembers_spec {members : List (String × Raw)} {fields fields' : Fields}
    (h : decodeMembers unwrap fields members = some fields')
    (hkeys : (fields.map Prod.fst).Nodup) :
    (fields'.map Prod.fst).Nodup ∧ ∀ key, fields'.lookup key =
      match lastOf key members with
      | some raw => decode unwrap raw
      | none => fields.lookup key := by
  induction members generalizing fields with
  | nil =>
    rw [decodeMembers, Option.some.injEq] at h
    subst h
    exact ⟨hkeys, fun key => rfl⟩
  | cons member rest ih =>
    obtain ⟨name, raw⟩ := member
    rw [decodeMembers] at h
    obtain ⟨value, hvalue, hrest⟩ := Option.bind_eq_some_iff.mp h
    obtain ⟨hnodup, hlookup⟩ := ih hrest (nodup_put hkeys)
    refine ⟨hnodup, fun key => ?_⟩
    rw [hlookup key, lastOf]
    cases hlast : lastOf key rest with
    | some later => rfl
    | none =>
      by_cases hname : name = key
      · subst hname
        simp [lookup_put, hvalue]
      · simp [hname, lookup_put_of_ne (Ne.symm hname)]

theorem decodeMembers_decodes {members : List (String × Raw)} {fields fields' : Fields}
    (h : decodeMembers unwrap fields members = some fields') {key : String} {raw : Raw}
    (hmem : (key, raw) ∈ members) : ∃ value, decode unwrap raw = some value := by
  induction members generalizing fields with
  | nil => simp at hmem
  | cons member rest ih =>
    obtain ⟨name, first⟩ := member
    rw [decodeMembers] at h
    obtain ⟨value, hvalue, hrest⟩ := Option.bind_eq_some_iff.mp h
    rcases mem_cons.mp hmem with heq | hmem
    · cases heq
      exact ⟨value, hvalue⟩
    · exact ih hrest hmem

variable {fields : Fields}

theorem visitMap_extra (members : List (String × Raw)) (slots : List Bool) (extra : Bool) :
    (visitMap fields slots extra members).2 = true ↔
      extra = true ∨ ∃ key ∈ members.map Prod.fst, key ∉ fields.map Prod.fst := by
  induction members generalizing slots extra with
  | nil => simp [visitMap]
  | cons member rest ih =>
    obtain ⟨key, raw⟩ := member
    rw [visitMap, map_cons]
    cases hfind : findMember key fields with
    | none =>
      have habsent := findMember_eq_none.mp hfind
      simp only [ih, true_or, true_iff]
      exact Or.inr ⟨key, mem_cons_self, habsent⟩
    | some found =>
      have hpresent : key ∈ fields.map Prod.fst := by
        by_contra habsent
        rw [findMember_eq_none.mpr habsent] at hfind
        cases hfind
      simp only [ih, mem_cons, or_and_right, exists_or, exists_eq_left, hpresent, not_true,
        false_or]

theorem visitMap_length (members : List (String × Raw)) (slots : List Bool) (extra : Bool) :
    (visitMap fields slots extra members).1.length = slots.length := by
  induction members generalizing slots extra with
  | nil => rfl
  | cons member rest ih =>
    obtain ⟨key, raw⟩ := member
    rw [visitMap]
    cases findMember key fields with
    | none => exact ih _ _
    | some found => exact (ih _ _).trans length_set

/-- The verdict of a field is that of the last member of its name. -/
theorem visitMap_slot (hkeys : (fields.map Prod.fst).Nodup) {index : ℕ} {key : String}
    {value : Value} (hfield : fields[index]? = some (key, value)) (members : List (String × Raw))
    {slots : List Bool} (hslots : slots.length = fields.length) (extra : Bool) :
    (visitMap fields slots extra members).1[index]? =
      match lastOf key members with
      | some raw => some (matchesRaw (some value) raw)
      | none => slots[index]? := by
  have hindex : index < fields.length := (List.getElem?_eq_some_iff.mp hfield).1
  induction members generalizing slots extra with
  | nil => rfl
  | cons member rest ih =>
    obtain ⟨name, raw⟩ := member
    rw [visitMap, lastOf]
    cases hfind : findMember name fields with
    | none =>
      have hname : name ≠ key := by
        rintro rfl
        exact findMember_eq_none.mp hfind
          (mem_map.mpr ⟨(name, value), mem_of_getElem? hfield, rfl⟩)
      simp only [ih hslots, hname, if_false, Option.or_none]
    | some found =>
      obtain ⟨place, wanted⟩ := found
      have hplace := findMember_eq_some hfind
      simp only [ih (length_set.trans hslots)]
      cases hlast : lastOf key rest with
      | some later => rfl
      | none =>
        by_cases hname : name = key
        · subst hname
          -- with unique keys the place found is the field's own
          have hsame : place = index := by
            have hp := getElem?_map (f := Prod.fst) (l := fields) (i := place)
            have hi := getElem?_map (f := Prod.fst) (l := fields) (i := index)
            rw [hplace] at hp
            rw [hfield] at hi
            exact (getElem?_inj (by simpa using (List.getElem?_eq_some_iff.mp hplace).1)
              hkeys).mp (hp.trans hi.symm)
          subst hsame
          rw [hfield] at hplace
          cases hplace
          simp [hslots, hindex]
        · have hother : place ≠ index := by
            rintro rfl
            rw [hfield] at hplace
            cases hplace
            exact hname rfl
          simp [hname, hother]

end LastOccurrence

section Agreement

theorem matchesRaw_none (raw : Raw) : matchesRaw none raw = false := by
  cases raw <;> simp [matchesRaw]

theorem visitSeq_false (wanted : Option (List Value)) (index : ℕ) (items : List Raw) :
    (visitSeq wanted index false items).1 = false := by
  induction items generalizing index with
  | nil => rfl
  | cons item rest ih => simpa [visitSeq] using ih (index + 1)

variable {unwrap : String → Option Value}

def Agrees (unwrap : String → Option Value) (raw : Raw) : Prop :=
  ∀ value expected : Value, raw.Plain → decode unwrap raw = some value → expected.Keyed →
    matchesRaw (some expected) raw = value.same expected

/-- From any place of the expected array on. -/
theorem visitSeq_agrees {items : List Raw} (hitems : ∀ item ∈ items, Agrees unwrap item)
    (hplain : ∀ item ∈ items, item.Plain) {values wanted : List Value}
    (hdecode : decodeItems unwrap items = some values) (hkeyed : ∀ item ∈ wanted, item.Keyed)
    {index : ℕ} (hindex : index ≤ wanted.length) (matched : Bool) :
    ((visitSeq (some wanted) index matched items).1 &&
        wanted.length == (visitSeq (some wanted) index matched items).2) =
      (matched && sameItems values (wanted.drop index)) := by
  induction items generalizing values index matched with
  | nil =>
    rw [decodeItems, Option.some.injEq] at hdecode
    subst hdecode
    rw [visitSeq]
    rcases hindex.lt_or_eq with hlt | rfl
    · rw [drop_eq_getElem_cons hlt]
      simp [sameItems, hlt.ne']
    · simp [sameItems]
  | cons item rest ih =>
    rw [decodeItems] at hdecode
    obtain ⟨value, hvalue, hrest⟩ := Option.bind_eq_some_iff.mp hdecode
    obtain ⟨values, hvalues, rfl⟩ := Option.map_eq_some_iff.mp hrest
    have hrestAgree := @ih (fun item h => hitems item (mem_cons_of_mem _ h))
      (fun item h => hplain item (mem_cons_of_mem _ h)) values hvalues
    rw [visitSeq]
    rcases hindex.lt_or_eq with hlt | rfl
    · have hitem : matchesRaw (some wanted[index]) item = value.same wanted[index] :=
        hitems item mem_cons_self _ _ (hplain item mem_cons_self) hvalue
          (hkeyed _ (getElem_mem hlt))
      rw [hrestAgree hlt, drop_eq_getElem_cons hlt, sameItems, ← Bool.and_assoc]
      simp [hlt, hitem]
    · -- the text has an item more than the array
      simp [matchesRaw_none, visitSeq_false, sameItems]

theorem sameFields_iff {collected fields : Fields} :
    sameFields collected fields = true ↔ ∀ key value, (key, value) ∈ collected →
      ∃ wanted, fields.lookup key = some wanted ∧ value.same wanted = true := by
  induction collected with
  | nil => simp [sameFields]
  | cons field rest ih =>
    obtain ⟨name, value⟩ := field
    rw [sameFields, Bool.and_eq_true, ih]
    constructor
    · rintro ⟨hfirst, hrest⟩ key value' hmem
      rcases mem_cons.mp hmem with heq | hmem
      · cases heq
        cases hlookup : fields.lookup name with
        | none => simp [hlookup] at hfirst
        | some wanted => exact ⟨wanted, rfl, by simpa [hlookup] using hfirst⟩
      · exact hrest key value' hmem
    · intro hall
      obtain ⟨wanted, hlookup, hsame⟩ := hall name value mem_cons_self
      exact ⟨by simpa [hlookup] using hsame,
        fun key value' hmem => hall key value' (mem_cons_of_mem _ hmem)⟩

/-- What the visitor's verdict on an object says. -/
theorem visitMap_verdict {fields : Fields} (hkeys : (fields.map Prod.fst).Nodup)
    (members : List (String × Raw)) :
    (!(visitMap fields (List.replicate fields.length false) false members).2 &&
        (visitMap fields (List.replicate fields.length false) false members).1.all id) = true ↔
      (∀ key ∈ members.map Prod.fst, key ∈ fields.map Prod.fst) ∧
      ∀ key value, (key, value) ∈ fields →
        ∃ raw, lastOf key members = some raw ∧ matchesRaw (some value) raw = true := by
  have hlength : (List.replicate fields.length false).length = fields.length :=
    length_replicate
  rw [Bool.and_eq_true, Bool.not_eq_true', ← Bool.not_eq_true, visitMap_extra, all_eq_true]
  refine and_congr (by simp) ?_
  constructor
  · intro hall key value hmem
    obtain ⟨index, hfield⟩ := mem_iff_getElem?.mp hmem
    have hindex := (List.getElem?_eq_some_iff.mp hfield).1
    have hslot := visitMap_slot hkeys hfield members hlength false
    cases hlast : lastOf key members with
    | some raw =>
      rw [hlast] at hslot
      exact ⟨raw, rfl, hall _ (mem_of_getElem? hslot)⟩
    | none =>
      simp only [hlast, getElem?_replicate, hindex, if_true] at hslot
      exact absurd (hall _ (mem_of_getElem? hslot)) (by simp)
  · intro hall slot hmem
    obtain ⟨index, hslot⟩ := mem_iff_getElem?.mp hmem
    have hindex : index < fields.length := by
      have := (List.getElem?_eq_some_iff.mp hslot).1
      rwa [visitMap_length, hlength] at this
    have hfield : fields[index]? = some (fields[index].1, fields[index].2) :=
      getElem?_eq_getElem hindex
    obtain ⟨raw, hlast, hmatches⟩ := hall _ _ (mem_of_getElem? hfield)
    rw [visitMap_slot hkeys hfield members hlength false, hlast] at hslot
    cases hslot
    exact hmatches

theorem visitMap_agrees {members : List (String × Raw)}
    (hmembers : ∀ member ∈ members, Agrees unwrap member.2)
    (hplain : ∀ member ∈ members, member.2.Plain) {collected fields : Fields}
    (hdecode : decodeMembers unwrap [] members = some collected)
    (hkeys : (fields.map Prod.fst).Nodup) (hkeyed : ∀ field ∈ fields, field.2.Keyed) :
    (!(visitMap fields (List.replicate fields.length false) false members).2 &&
        (visitMap fields (List.replicate fields.length false) false members).1.all id) =
      (collected.length == fields.length && sameFields collected fields) := by
  obtain ⟨hnodup, hlookup⟩ := decodeMembers_spec hdecode nodup_nil
  -- a collected value is that of its name's last member
  have hcollected : ∀ {key value}, (key, value) ∈ collected ↔
      ∃ raw, lastOf key members = some raw ∧ decode unwrap raw = some value := by
    intro key value
    rw [← lookup_eq_some hnodup, hlookup]
    cases lastOf key members <;> simp
  have hagree : ∀ {key raw value wanted}, lastOf key members = some raw →
      decode unwrap raw = some value → (key, wanted) ∈ fields →
      matchesRaw (some wanted) raw = value.same wanted := fun hlast hvalue hwanted =>
    hmembers _ (mem_of_lastOf hlast) _ _ (hplain _ (mem_of_lastOf hlast)) hvalue
      (hkeyed _ hwanted)
  rw [Bool.eq_iff_iff, visitMap_verdict hkeys, Bool.and_eq_true, beq_iff_eq, sameFields_iff]
  have hnames : ∀ key, key ∈ members.map Prod.fst ↔ key ∈ collected.map Prod.fst := by
    intro key
    rw [← lastOf_isSome_iff, Option.isSome_iff_exists]
    constructor
    · rintro ⟨raw, hlast⟩
      obtain ⟨value, hvalue⟩ := decodeMembers_decodes hdecode (mem_of_lastOf hlast)
      exact mem_map.mpr ⟨(key, value), hcollected.mpr ⟨raw, hlast, hvalue⟩, rfl⟩
    · intro hmem
      obtain ⟨⟨name, value⟩, hfield, rfl⟩ := mem_map.mp hmem
      obtain ⟨raw, hlast, -⟩ := hcollected.mp hfield
      exact ⟨raw, hlast⟩
  constructor
  · rintro ⟨hsub, hall⟩
    have hsup : ∀ key ∈ fields.map Prod.fst, key ∈ collected.map Prod.fst := by
      intro key hmem
      obtain ⟨⟨name, wanted⟩, hfield, rfl⟩ := mem_map.mp hmem
      obtain ⟨raw, hlast, -⟩ := hall name wanted hfield
      exact (hnames name).mp (lastOf_isSome_iff.mp (Option.isSome_iff_exists.mpr ⟨raw, hlast⟩))
    have hperm : (collected.map Prod.fst).Perm (fields.map Prod.fst) :=
      (perm_ext_iff_of_nodup hnodup hkeys).mpr fun key =>
        ⟨fun hmem => hsub key ((hnames key).mpr hmem), hsup key⟩
    refine ⟨by simpa using hperm.length_eq, fun key value hmem => ?_⟩
    obtain ⟨raw, hlast, hvalue⟩ := hcollected.mp hmem
    obtain ⟨⟨name, wanted⟩, hfield, rfl⟩ := mem_map.mp
      (hsub key ((hnames key).mpr (mem_map.mpr ⟨(key, value), hmem, rfl⟩)))
    obtain ⟨raw', hlast', hmatches⟩ := hall name wanted hfield
    rw [hlast] at hlast'
    cases hlast'
    exact ⟨wanted, (lookup_eq_some hkeys).mpr hfield,
      (hagree hlast hvalue hfield).symm.trans hmatches⟩
  · rintro ⟨hlength, hall⟩
    have hsub : ∀ key ∈ collected.map Prod.fst, key ∈ fields.map Prod.fst := by
      intro key hmem
      obtain ⟨⟨name, value⟩, hfield, rfl⟩ := mem_map.mp hmem
      obtain ⟨wanted, hlookup, -⟩ := hall name value hfield
      exact mem_map.mpr ⟨(name, wanted), (lookup_eq_some hkeys).mp hlookup, rfl⟩
    -- as many keys on both sides: none of the expected ones is missing
    have hperm : (collected.map Prod.fst).Perm (fields.map Prod.fst) :=
      (subperm_of_subset hnodup hsub).perm_of_length_le (by simp [hlength])
    refine ⟨fun key hmem => hsub key ((hnames key).mp hmem), fun key wanted hfield => ?_⟩
    obtain ⟨⟨name, value⟩, hmem, rfl⟩ := mem_map.mp
      (hperm.mem_iff.mpr (mem_map.mpr ⟨(key, wanted), hfield, rfl⟩))
    obtain ⟨raw, hlast, hvalue⟩ := hcollected.mp hmem
    obtain ⟨wanted', hlookup, hsame⟩ := hall name value hmem
    rw [(lookup_eq_some hkeys).mpr hfield] at hlookup
    cases hlookup
    exact ⟨raw, hlast, (hagree hlast hvalue hfield).trans hsame⟩

theorem agrees (unwrap : String → Option Value) (raw : Raw) : Agrees unwrap raw := by
  induction raw using Raw.induct with
  | null | bool _ | num _ | str _ =>
    rintro value expected - hdecode -
    rw [decode, Option.some.injEq] at hdecode
    subst hdecode
    cases expected <;> simp [matchesRaw, Value.same, BEq.comm]
  | arr items ih =>
    rintro value expected (_ | _ | _ | _ | hplain | _) hdecode hkeyed
    rw [decode] at hdecode
    obtain ⟨values, hvalues, rfl⟩ := Option.map_eq_some_iff.mp hdecode
    cases hkeyed with
    | arr hitems =>
      have hseq := visitSeq_agrees ih hplain hvalues hitems (Nat.zero_le _) true
      simpa [matchesRaw, Value.same, Value.asArr] using hseq
    | _ => simp [matchesRaw, Value.same, Value.asArr]
  | obj members ih =>
    rintro value expected (_ | _ | _ | _ | _ | ⟨hordinary, hplain⟩) hdecode hkeyed
    rw [decode, hordinary, if_neg Bool.false_ne_true] at hdecode
    obtain ⟨collected, hcollected, rfl⟩ := Option.map_eq_some_iff.mp hdecode
    cases hkeyed with
    | obj hunique hfields =>
      exact visitMap_agrees ih hplain hcollected hunique hfields
    | _ => simp [matchesRaw, Value.same, Value.asObj]

/-- The streamed comparison is the comparison with the decoded value, for every text in which no
object begins with the private name. -/
theorem equal_iff_same (d : Deserializer) {text : String} {raw : Raw} {value expected : Value}
    (hparse : d.parse text = some raw) (hplain : raw.Plain) (hvalue : d.decoded text = some value)
    (hkeyed : expected.Keyed) :
    d.equal text expected = some true ↔ value.same expected = true := by
  have hdecode : decode d.unwrap raw = some value := by
    rwa [Deserializer.decoded, hparse, Option.bind_some] at hvalue
  rw [Deserializer.equal, hparse, Option.map_some, Option.some.injEq,
    agrees d.unwrap raw value expected hplain hdecode hkeyed]

def repeatedName : String := "\x7b\"a\":0,\"b\":true,\"a\":1\x7d"

def threeTexts : Deserializer where
  parse text :=
    if text = "null" then some .null
    else if text = privateObject then some (.obj [(privateName, .str "null")])
    else if text = repeatedName then
      some (.obj [("a", .num (.posInt 0)), ("b", .bool true), ("a", .num (.posInt 1))])
    else none
  unwrap text :=
    if text = "null" then some .null
    else if text = privateObject then some .null
    else if text = repeatedName then
      some (.obj [("a", .num (.posInt 1)), ("b", .bool true)])
    else none
  unwrap_eq text := by split_ifs <;> simp [decode, decodeMembers, put, isPrivate, privateText,
    privateName]
  null_text := if_pos rfl
  private_text := by simp [privateObject]

/-- The first of two members of a name does not count, and neither does the order. -/
theorem threeTexts_last_counts :
    threeTexts.equal repeatedName (.obj [("b", .bool true), ("a", .num (.posInt 1))]) =
      some true := by
  have hparse : threeTexts.parse repeatedName =
      some (.obj [("a", .num (.posInt 0)), ("b", .bool true), ("a", .num (.posInt 1))]) := rfl
  have hvalue : threeTexts.decoded repeatedName =
      some (.obj [("a", .num (.posInt 1)), ("b", .bool true)]) := rfl
  refine (equal_iff_same threeTexts hparse ?_ hvalue ?_).mpr rfl
  · refine .obj (by decide) fun member hmem => ?_
    simp only [mem_cons, not_mem_nil, or_false] at hmem
    rcases hmem with rfl | rfl | rfl
    exacts [.num _, .bool _, .num _]
  · refine .obj (by decide) fun field hmem => ?_
    simp only [mem_cons, not_mem_nil, or_false] at hmem
    rcases hmem with rfl | rfl
    exacts [.bool _, .num _]

/-- An object with the private name decodes to what its text decodes to, and the comparison takes
it for an object. -/
theorem private_object_differs :
    ∃ (text : String) (value : Value), value.Keyed ∧ value.same value = true ∧
      ∀ d : Deserializer, d.decoded text = some value ∧ d.equal text value = some false := by
  refine ⟨privateObject, .null, .null, rfl, fun d => ?_⟩
  have hnull : d.unwrap "null" = some .null := by rw [d.unwrap_eq, d.null_text]; rfl
  constructor
  · rw [Deserializer.decoded, d.private_text]
    exact hnull
  · rw [Deserializer.equal, d.private_text]
    rfl

end Agreement

end StreamedComparison
