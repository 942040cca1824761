import PraxisAi.CursorWalks
import PraxisAi.DecimalText
import PraxisAi.MemoryStore
import PraxisAi.ResponseState
import Mathlib.Data.List.Forall2

/-! # Input items of a stored response, page by page

The stored input becomes a list of items, and a cursor names where a page starts: the id of an
item, a position marked with a text of its own, or a bare number. All three are texts, and an
item's id is any text a client chose. -/
namespace InputItemPages

open List Option
open JsonValues ResponseState MemoryStore CursorWalks DecimalText SaturatingArithmetic

/-! ## Optional fields -/

inductive IncludeField where
  | fileSearchCallResults
  | webSearchCallResults
  | webSearchCallActionSources
  | messageInputImageImageUrl
  | computerCallOutputImageUrl
  | codeInterpreterCallOutputs
  | reasoningEncryptedContent
  | messageOutputTextLogprobs
  deriving DecidableEq

def IncludeFields : Type := IncludeField → Bool

def removeUnlessIncluded (item : Json) (field : String) (included : Bool) : Json :=
  if included then item else remove item field

def removeNested (item : Json) (member field : String) : Json :=
  match item.get? member with
  | some (.obj fields) => item.insert member (remove (.obj fields) field)
  | _ => item

def projectWebSearchFields (item : Json) (includes : IncludeFields) : Json :=
  let item := removeUnlessIncluded item "results" (includes .webSearchCallResults)
  if includes .webSearchCallActionSources then item else removeNested item "action" "sources"

def projectComputerOutputFields (item : Json) (includes : IncludeFields) : Json :=
  if includes .computerCallOutputImageUrl then item else removeNested item "output" "image_url"

def projectPart (includes : IncludeFields) (part : Json) : Json :=
  if itemType part = some "input_image" ∧ includes .messageInputImageImageUrl = false then
    remove part "image_url"
  else if itemType part = some "output_text" ∧ includes .messageOutputTextLogprobs = false then
    remove part "logprobs"
  else part

def projectMessageFields (item : Json) (includes : IncludeFields) : Json :=
  match item.get? "content" with
  | some (.arr parts) => item.insert "content" (.arr (parts.map (projectPart includes)))
  | _ => item

def projectItem (includes : IncludeFields) (item : Json) : Json :=
  match itemType item with
  | some "reasoning" =>
    removeUnlessIncluded item "encrypted_content" (includes .reasoningEncryptedContent)
  | some "file_search_call" =>
    removeUnlessIncluded item "results" (includes .fileSearchCallResults)
  | some "web_search_call" => projectWebSearchFields item includes
  | some "code_interpreter_call" =>
    removeUnlessIncluded item "outputs" (includes .codeInterpreterCallOutputs)
  | some "computer_call_output" => projectComputerOutputFields item includes
  | some "message" => projectMessageFields item includes
  | _ => item

/-! ## Normalized items -/

def isCompactionItem (item : Json) : Bool := itemType item == some "compaction"

def usizeText (n : ℕ) : String := String.ofList (decimal n)

def inputId (responseId : String) (index : ℕ) : String :=
  "msg_" ++ responseId ++ "_input_" ++ usizeText index

def scalarInputItem (responseId text : String) : Json :=
  .obj [("id", .str (inputId responseId 0)), ("type", .str "message"), ("role", .str "user"),
    ("content", .arr [.obj [("type", .str "input_text"), ("text", .str text)]])]

/-- Push a character until the text is free; `fuel` bounds the taken texts. -/
def padUntilFree (taken : String → Bool) (pad : Char) : ℕ → String → String
  | 0, text => text
  | fuel + 1, text => if taken text then padUntilFree taken pad fuel (text.push pad) else text

/-- `reserved` holds every explicit id and the synthetic ones given out so far. -/
def assignIds (responseId : String) : List String → ℕ → List Json → List Json
  | _, _, [] => []
  | reserved, index, item :: rest =>
    if (itemId item).isNone ∧ item.asObj.isSome then
      let id := padUntilFree reserved.contains '_' reserved.length (inputId responseId index)
      item.insert "id" (.str id) :: assignIds responseId (id :: reserved) (index + 1) rest
    else item :: assignIds responseId reserved (index + 1) rest

def ensureStableIds (responseId : String) (items : List Json) : List Json :=
  assignIds responseId (items.filterMap itemId) 0 items

def inputEntries (record : ResponseRecord) : List Json :=
  match record.input with
  | .null => []
  | .str text => [scalarInputItem record.id text]
  | .arr items => items.filter fun item => !isCompactionItem item
  | other => [other]

def normalizeInputItems (record : ResponseRecord) : List Json :=
  ensureStableIds record.id (inputEntries record)

/-! ## Cursors -/

/-- Whether the digits outgrow the type before a character that is no digit. -/
def outgrows : ℕ → List Char → Bool
  | _, [] => false
  | acc, ch :: rest =>
    match digitValue ch with
    | none => false
    | some d => if acc * 10 + d ≤ u64Max then outgrows (acc * 10 + d) rest else true

def parseIntError (text : List Char) : String :=
  if text = [] then "cannot parse integer from empty string"
  else if outgrows 0 (if text.head? = some '+' then text.tail else text) then
    "number too large to fit in target type"
  else "invalid digit found in string"

def parseUsize (text : List Char) : Except String ℕ :=
  match parseU64 text with
  | some n => .ok n
  | none => .error (parseIntError text)

def positionCursorPrefix : List Char := "praxis_input_items_offset:".toList

def rposition {α : Type} (p : α → Bool) : List α → Option ℕ
  | [] => none
  | x :: xs =>
    match rposition p xs with
    | some i => some (i + 1)
    | none => if p x then some 0 else none

def hasId (id : String) (item : Json) : Bool := itemId item == some id

def cursorIdOffset (items : List Json) (cursor : String) : Option ℕ :=
  (rposition (hasId cursor) items).map (· + 1)

def positionCursorOffset (cursor : String) : Except StoreError (Option ℕ) :=
  match cursor.toList.dropPrefix? positionCursorPrefix with
  | none => .ok none
  | some encoded =>
    match splitOnce ':' encoded with
    | none => .error (.invalidInput "invalid input_items position cursor")
    | some (offset, discriminator) =>
      match parseUsize offset with
      | .error e => .error (.invalidInput ("invalid input_items position cursor: " ++ e))
      | .ok offset =>
        if discriminator = [] ∨ discriminator.all (· == 'x') = false then
          .error (.invalidInput "invalid input_items position cursor discriminator")
        else .ok (some offset)

/-- An id goes first, then a marked position, then a bare number. -/
def cursorOffset (items : List Json) (cursor : String) : Except StoreError ℕ :=
  match cursorIdOffset items cursor with
  | some offset => .ok offset
  | none => do
    match ← positionCursorOffset cursor with
    | some offset => .ok offset
    | none =>
      match parseUsize cursor.toList with
      | .ok offset => .ok offset
      | .error e => .error (.invalidInput ("invalid input_items cursor: " ++ e))

def uniquePositionCursor (items : List Json) (offset : ℕ) : String :=
  padUntilFree (fun candidate => items.any (hasId candidate)) 'x' items.length
    (String.ofList (positionCursorPrefix ++ decimal offset ++ [':', 'x']))

def pageNextCursor (items : List Json) (stop : ℕ) (hasMore : Bool) : Option String :=
  if hasMore = false ∨ stop = 0 then none
  else
    (items[stop - 1]?).map fun last =>
      match itemId last with
      | none => usizeText stop
      | some id =>
        if ((items.filter (hasId id)).take 2).length = 1 then id
        else uniquePositionCursor items stop

/-! ## Pages -/

inductive Order where
  | ascending
  | descending
  deriving DecidableEq

structure ListParams where
  cursor : Option String
  limit : ℕ
  order : Order

def maxPageLimit : ℕ := 100

def effectiveLimit (limit : ℕ) : ℕ := max 1 (min limit maxPageLimit)

structure InputItemPage where
  data : List Json
  nextCursor : Option String
  hasMore : Bool

def Order.arrange (order : Order) (items : List Json) : List Json :=
  match order with
  | .ascending => items
  | .descending => items.reverse

def pageOffset (items : List Json) : Option String → Except StoreError ℕ
  | none => .ok 0
  | some cursor => cursorOffset items cursor

def pageOf (items : List Json) (offset limit : ℕ) (includes : IncludeFields) : InputItemPage :=
  let stop := min (offset + limit) items.length
  let hasMore := decide (stop < items.length)
  { data := ((items.drop offset).take limit).map (projectItem includes)
    nextCursor := pageNextCursor items stop hasMore
    hasMore }

def pageAt (items : List Json) (offset limit : ℕ) (includes : IncludeFields) :
    Except StoreError InputItemPage :=
  if u64Max < offset + limit then
    .error (.invalidInput "input_items cursor offset overflow")
  else .ok (pageOf items offset limit includes)

def listInputItems (record : ResponseRecord) (params : ListParams) (includes : IncludeFields) :
    Except StoreError InputItemPage := do
  let items := params.order.arrange (normalizeInputItems record)
  let offset ← pageOffset items params.cursor
  pageAt items offset (effectiveLimit params.limit) includes

/-! ## Free texts -/

theorem toList_padUntilFree (taken : String → Bool) (pad : Char) (fuel : ℕ) (text : String) :
    ∃ k, (padUntilFree taken pad fuel text).toList = text.toList ++ List.replicate k pad := by
  induction fuel generalizing text with
  | zero => exact ⟨0, by simp [padUntilFree]⟩
  | succ fuel ih =>
    rw [padUntilFree]
    by_cases h : taken text = true
    · obtain ⟨k, hk⟩ := ih (text.push pad)
      refine ⟨k + 1, ?_⟩
      rw [if_pos h, hk, String.toList_push, append_assoc, replicate_succ]
      rfl
    · exact ⟨0, by simp [h]⟩

/-- Each push gives a longer text, so a text that is taken is met once. -/
theorem padUntilFree_free (taken : String → Bool) (pad : Char) {fuel : ℕ} (names : List String)
    (text : String)
    (hnames : ∀ t, text.length ≤ t.length → taken t = true → t ∈ names)
    (hfuel : names.length ≤ fuel) : taken (padUntilFree taken pad fuel text) = false := by
  induction fuel generalizing text names with
  | zero =>
    obtain rfl : names = [] := eq_nil_of_length_eq_zero (by omega)
    rw [padUntilFree]
    by_contra h
    exact not_mem_nil (hnames text le_rfl (by simpa using h))
  | succ fuel ih =>
    rw [padUntilFree]
    by_cases h : taken text = true
    · rw [if_pos h]
      have hmem := hnames text le_rfl h
      refine ih (names.erase text) (text.push pad) ?_ ?_
      · intro t hle ht
        rw [String.length_push] at hle
        have hne : t ≠ text := by
          rintro rfl
          omega
        exact (mem_erase_of_ne hne).mpr (hnames t (by omega) ht)
      · rw [length_erase_of_mem hmem]
        omega
    · rw [if_neg h]
      simpa using h

/-! ## Last positions -/

section Positions

variable {α : Type} {p : α → Bool} {l : List α}

theorem rposition_eq_none : rposition p l = none ↔ ∀ x ∈ l, p x = false := by
  induction l with
  | nil => simp [rposition]
  | cons x xs ih =>
    rw [rposition, List.forall_mem_cons, ← ih]
    cases rposition p xs with
    | none => simp
    | some i => simp

theorem rposition_spec {i : ℕ} (h : rposition p l = some i) : ∃ x, l[i]? = some x ∧ p x = true := by
  induction l generalizing i with
  | nil => cases h
  | cons x xs ih =>
    rw [rposition] at h
    cases hxs : rposition p xs with
    | none =>
      rw [hxs] at h
      by_cases hx : p x = true
      · obtain rfl : 0 = i := by simpa [hx] using h
        exact ⟨x, rfl, hx⟩
      · simp [hx] at h
    | some j =>
      obtain rfl : j + 1 = i := by simpa [hxs] using h
      exact ih hxs

theorem rposition_of_unique (hone : (l.filter p).length = 1) {i : ℕ} {x : α}
    (hi : l[i]? = some x) (hx : p x = true) : rposition p l = some i := by
  induction l generalizing i with
  | nil => cases hone
  | cons y ys ih =>
    rw [rposition]
    by_cases hy : p y = true
    · have hnone : ∀ z ∈ ys, p z = false := by
        rw [filter_cons_of_pos hy, length_cons] at hone
        intro z hz
        have hnil := eq_nil_of_length_eq_zero (Nat.succ.inj hone)
        simpa using filter_eq_nil_iff.mp hnil z hz
      rw [rposition_eq_none.mpr hnone]
      cases i with
      | zero => exact if_pos hy
      | succ i => rw [hnone x (mem_of_getElem? hi)] at hx; cases hx
    · rw [filter_cons_of_neg hy] at hone
      cases i with
      | zero =>
        obtain rfl : y = x := by simpa using hi
        exact absurd hx hy
      | succ i => rw [ih hone hi]

end Positions

/-! ## Reading a cursor back -/

theorem cursorIdOffset_eq_none {items : List Json} {cursor : String} :
    cursorIdOffset items cursor = none ↔ ∀ item ∈ items, itemId item ≠ some cursor := by
  rw [cursorIdOffset, map_eq_none_iff, rposition_eq_none]
  simp [hasId]

theorem parseUsize_decimal {n : ℕ} (h : n ≤ u64Max) : parseUsize (decimal n) = .ok n := by
  rw [parseUsize, parseU64_decimal h]

theorem positionCursorOffset_usizeText (n : ℕ) : positionCursorOffset (usizeText n) = .ok none := by
  have hnone : (usizeText n).toList.dropPrefix? positionCursorPrefix = none := by
    rw [eq_none_iff_forall_ne_some]
    intro rest hrest
    obtain ⟨lead, htext, hlead⟩ := dropPrefix?_eq_some_iff.mp hrest
    obtain rfl := eq_of_beq hlead
    have hdigit : ('p' : Char).isDigit = true := by
      apply isDigit_of_mem_decimal (n := n)
      rw [usizeText, String.toList_ofList] at htext
      rw [htext]
      exact mem_append_left _ (by decide)
    exact absurd hdigit (by decide)
  rw [positionCursorOffset, hnone]

theorem cursorOffset_usizeText {items : List Json} {n : ℕ} (hn : n ≤ u64Max)
    (hfree : ∀ item ∈ items, itemId item ≠ some (usizeText n)) :
    cursorOffset items (usizeText n) = .ok n := by
  rw [cursorOffset, cursorIdOffset_eq_none.mpr hfree, positionCursorOffset_usizeText]
  simp only [usizeText, String.toList_ofList, parseUsize_decimal hn]
  rfl

theorem positionCursorOffset_marked {n k : ℕ} (hn : n ≤ u64Max) {cursor : String}
    (hcursor : cursor.toList =
      positionCursorPrefix ++ decimal n ++ [':', 'x'] ++ List.replicate k 'x') :
    positionCursorOffset cursor = .ok (some n) := by
  have hdrop : cursor.toList.dropPrefix? positionCursorPrefix =
      some (decimal n ++ ':' :: 'x' :: List.replicate k 'x') := by
    apply dropPrefix?_eq_some_iff.mpr
    refine ⟨positionCursorPrefix, ?_, beq_self_eq_true _⟩
    rw [hcursor]
    simp
  have hsplit := splitOnce_append (not_mem_decimal (s := ':') (by decide) n)
    ('x' :: List.replicate k 'x')
  rw [positionCursorOffset, hdrop]
  simp only [hsplit, parseUsize_decimal hn]
  rw [if_neg]
  simp

theorem cursorOffset_uniquePositionCursor {items : List Json} {n : ℕ} (hn : n ≤ u64Max) :
    cursorOffset items (uniquePositionCursor items n) = .ok n := by
  obtain ⟨k, hk⟩ := toList_padUntilFree (fun candidate => items.any (hasId candidate)) 'x'
    items.length (String.ofList (positionCursorPrefix ++ decimal n ++ [':', 'x']))
  rw [String.toList_ofList] at hk
  have hfree : ∀ item ∈ items, itemId item ≠ some (uniquePositionCursor items n) := by
    have hfree : items.any (hasId (uniquePositionCursor items n)) = false := by
      apply padUntilFree_free (fun candidate => items.any (hasId candidate)) 'x'
        (items.filterMap itemId)
      · intro t _ ht
        obtain ⟨item, hitem, hid⟩ := any_eq_true.mp ht
        exact mem_filterMap.mpr ⟨item, hitem, eq_of_beq hid⟩
      · exact length_filterMap_le _ _
    intro item hitem hid
    exact any_eq_false.mp hfree item hitem (beq_iff_eq.mpr hid)
  rw [cursorOffset, cursorIdOffset_eq_none.mpr hfree, uniquePositionCursor,
    positionCursorOffset_marked hn hk]
  rfl

/-- The cursor at the end of a page is read back as that end, unless the last item of the page
has no id and some item is called like the number. -/
theorem cursorOffset_pageNextCursor {items : List Json} {stop : ℕ} (hpos : 0 < stop)
    (hlt : stop < items.length) (hsize : items.length ≤ u64Max) {last : Json}
    (hlast : items[stop - 1]? = some last) {cursor : String}
    (hcursor : pageNextCursor items stop true = some cursor) :
    cursorOffset items cursor = .ok stop ↔
      (itemId last = none → ∀ item ∈ items, itemId item ≠ some (usizeText stop)) := by
  have hnot : ¬(true = false ∨ stop = 0) := by
    rintro (h | h)
    · cases h
    · omega
  rw [pageNextCursor, if_neg hnot, hlast, map_some, Option.some.injEq] at hcursor
  cases hid : itemId last with
  | some id =>
    rw [hid] at hcursor
    constructor
    · intro _ h
      cases h
    intro _
    by_cases hone : ((items.filter (hasId id)).take 2).length = 1
    · simp only [if_pos hone] at hcursor
      subst hcursor
      have hlength : (items.filter (hasId id)).length = 1 := by
        rw [length_take] at hone
        omega
      have hlastIs := rposition_of_unique hlength hlast (beq_iff_eq.mpr hid)
      rw [cursorOffset, cursorIdOffset, hlastIs, map_some, Nat.sub_add_cancel hpos]
    · simp only [if_neg hone] at hcursor
      subst hcursor
      exact cursorOffset_uniquePositionCursor (by omega)
  | none =>
    obtain rfl : usizeText stop = cursor := by simpa [hid] using hcursor
    constructor
    · intro hoffset _
      by_contra htaken
      have hsome : cursorIdOffset items (usizeText stop) ≠ none := by
        intro h
        exact htaken (cursorIdOffset_eq_none.mp h)
      obtain ⟨offset, hoff⟩ := ne_none_iff_exists'.mp hsome
      rw [cursorOffset, hoff, Except.ok.injEq] at hoffset
      obtain ⟨i, hi, hioff⟩ := map_eq_some_iff.mp hoff
      obtain ⟨item, hitem, hcalled⟩ := rposition_spec hi
      obtain rfl : i = stop - 1 := by omega
      obtain rfl : last = item := Option.some.inj (hlast.symm.trans hitem)
      rw [hasId, hid] at hcalled
      cases hcalled
    · intro hfree
      exact cursorOffset_usizeText (by omega) (hfree rfl)

/-! ## Ids of normalized items -/

/-- What is left of an entry's id: an object always has one, and none is made up that reads as
a number. -/
structure Identified (entry item : Json) : Prop where
  none_iff : itemId item = none ↔ entry.asObj = none
  number_iff : ∀ n, itemId item = some (usizeText n) ↔ itemId entry = some (usizeText n)

theorem itemId_of_asObj_none {item : Json} (h : item.asObj = none) : itemId item = none := by
  cases item with
  | obj fields => cases h
  | _ => rfl

theorem itemId_insert {item : Json} (h : item.asObj.isSome = true) (id : String) :
    itemId (item.insert "id" (.str id)) = some id := by
  cases item with
  | obj fields => simp [itemId, strField, Json.insert, Json.get?, Json.lookup_setField, Json.asStr]
  | _ => cases h

theorem paddedId_ne_usizeText (taken : String → Bool) (fuel : ℕ) (responseId : String)
    (index n : ℕ) : padUntilFree taken '_' fuel (inputId responseId index) ≠ usizeText n := by
  intro heq
  obtain ⟨k, hk⟩ := toList_padUntilFree taken '_' fuel (inputId responseId index)
  have hdigit : ('m' : Char).isDigit = true := by
    apply isDigit_of_mem_decimal (n := n)
    rw [heq, usizeText, String.toList_ofList] at hk
    rw [hk, inputId]
    simp
  exact absurd hdigit (by decide)

theorem identified_self {item : Json} (h : ¬((itemId item).isNone ∧ item.asObj.isSome)) :
    Identified item item := by
  refine ⟨⟨fun hid => ?_, itemId_of_asObj_none⟩, fun n => Iff.rfl⟩
  by_contra hobj
  exact h ⟨by rw [hid]; rfl, isSome_iff_ne_none.mpr hobj⟩

theorem forall₂_assignIds (responseId : String) (reserved : List String) (index : ℕ)
    (items : List Json) :
    List.Forall₂ Identified items (assignIds responseId reserved index items) := by
  induction items generalizing reserved index with
  | nil => exact .nil
  | cons item rest ih =>
    rw [assignIds]
    by_cases h : (itemId item).isNone ∧ item.asObj.isSome
    · rw [if_pos h]
      refine .cons ⟨?_, ?_⟩ (ih _ _)
      · rw [itemId_insert h.2]
        obtain ⟨fields, hfields⟩ := isSome_iff_exists.mp h.2
        simp [hfields]
      · intro n
        rw [itemId_insert h.2, isNone_iff_eq_none.mp h.1, Option.some.injEq]
        constructor
        · intro heq
          exact absurd heq (paddedId_ne_usizeText _ _ _ _ n)
        · intro heq
          cases heq
    · rw [if_neg h]
      exact .cons (identified_self h) (ih _ _)

theorem forall₂_arrange (order : Order) (record : ResponseRecord) :
    List.Forall₂ Identified (order.arrange (inputEntries record))
      (order.arrange (normalizeInputItems record)) := by
  have h : List.Forall₂ Identified (inputEntries record) (normalizeInputItems record) :=
    forall₂_assignIds _ _ _ _
  cases order with
  | ascending => exact h
  | descending => exact rel_reverse h

/-! ## Following the cursors -/

variable (record : ResponseRecord) (limit : ℕ) (order : Order) (includes : IncludeFields)

def fetchPage (cursor : Option String) : Except StoreError InputItemPage :=
  listInputItems record ⟨cursor, limit, order⟩ includes

def orderedItems : List Json := order.arrange (normalizeInputItems record)

def pageStart (cursor : Option String) : Option ℕ :=
  ((pageOffset (orderedItems record order) cursor).toOption).filter
    (· + effectiveLimit limit ≤ u64Max)

variable {record limit order includes}

theorem pageStart_eq {cursor : Option String} {offset : ℕ} :
    pageStart record limit order cursor = some offset ↔
      pageOffset (orderedItems record order) cursor = .ok offset ∧
        offset + effectiveLimit limit ≤ u64Max := by
  rw [pageStart, filter_eq_some_iff, decide_eq_true_iff]
  cases pageOffset (orderedItems record order) cursor with
  | error e => simp [Except.toOption]
  | ok o => simp [Except.toOption]

theorem fetchPage_ok {cursor : Option String} {page : InputItemPage} :
    fetchPage record limit order includes cursor = .ok page ↔
      ∃ offset, pageStart record limit order cursor = some offset ∧
        page = pageOf (orderedItems record order) offset (effectiveLimit limit) includes := by
  simp only [pageStart_eq]
  rw [fetchPage, listInputItems]
  change (pageOffset (orderedItems record order) cursor).bind _ = _ ↔ _
  cases pageOffset (orderedItems record order) cursor with
  | error e => simp [Except.bind]
  | ok offset =>
    simp only [Except.bind, Except.ok.injEq, pageAt]
    by_cases hfit : u64Max < offset + effectiveLimit limit
    · rw [if_pos hfit]
      constructor
      · intro h
        cases h
      · rintro ⟨_, ⟨rfl, hle⟩, _⟩
        omega
    · rw [if_neg hfit, Except.ok.injEq]
      constructor
      · intro h
        exact ⟨offset, ⟨rfl, by omega⟩, h.symm⟩
      · rintro ⟨_, ⟨rfl, _⟩, h⟩
        exact h.symm

theorem effectiveLimit_pos (limit : ℕ) : 0 < effectiveLimit limit := by
  rw [effectiveLimit]
  omega

theorem effectiveLimit_le (limit : ℕ) : effectiveLimit limit ≤ 100 := by
  rw [effectiveLimit, maxPageLimit]
  omega

theorem pageStart_none : pageStart record limit order none = some 0 := by
  have h := effectiveLimit_le limit
  rw [pageStart_eq]
  refine ⟨rfl, ?_⟩
  rw [Nat.zero_add]
  exact h.trans (by decide)

def cursorAt (items : List Json) (stop : ℕ) : String := (pageNextCursor items stop true).getD ""

theorem pageNextCursor_true {items : List Json} {stop : ℕ} (hpos : 0 < stop)
    (hlt : stop < items.length) :
    pageNextCursor items stop true = some (cursorAt items stop) := by
  have hlast : items[stop - 1]? = some (items.get ⟨stop - 1, by omega⟩) :=
    getElem?_eq_getElem (by omega)
  rw [cursorAt, pageNextCursor, if_neg (by simp; omega), hlast]
  rfl

theorem nextCursor_pageOf (items : List Json) (offset limit : ℕ) (hlimit : 0 < limit) :
    (pageOf items offset limit includes).nextCursor =
      if offset + limit < items.length then some (cursorAt items (offset + limit)) else none := by
  simp only [pageOf]
  by_cases h : offset + limit < items.length
  · rw [if_pos h, Nat.min_eq_left h.le, decide_eq_true h]
    exact pageNextCursor_true (by omega) h
  · rw [if_neg h, Nat.min_eq_right (by omega), decide_eq_false (Nat.lt_irrefl _), pageNextCursor]
    rfl

theorem hasMore_pageOf (items : List Json) (offset limit : ℕ) (hlimit : 0 < limit) :
    (pageOf items offset limit includes).hasMore =
      (pageOf items offset limit includes).nextCursor.isSome := by
  rw [nextCursor_pageOf items offset limit hlimit]
  by_cases h : offset + limit < items.length
  · simp [pageOf, h]
  · simp [pageOf, h]

theorem start_of_fetchPage {cursor : Option String} {page : InputItemPage}
    (h : fetchPage record limit order includes cursor = .ok page) :
    ∃ offset, pageStart record limit order cursor = some offset := by
  obtain ⟨offset, hstart, _⟩ := fetchPage_ok.mp h
  exact ⟨offset, hstart⟩

theorem fetchPage_of_start {cursor : Option String} {offset : ℕ}
    (h : pageStart record limit order cursor = some offset) :
    ∃ page, fetchPage record limit order includes cursor = .ok page :=
  ⟨_, fetchPage_ok.mpr ⟨offset, h, rfl⟩⟩

theorem page_of_fetchPage {cursor : Option String} {page : InputItemPage} {offset : ℕ}
    (h : fetchPage record limit order includes cursor = .ok page)
    (hstart : pageStart record limit order cursor = some offset) :
    page = pageOf (orderedItems record order) offset (effectiveLimit limit) includes := by
  obtain ⟨other, hother, hpage⟩ := fetchPage_ok.mp h
  obtain rfl := Option.some.inj (hother.symm.trans hstart)
  exact hpage

theorem nextCursor_of_fetchPage {cursor : Option String} {page : InputItemPage} {offset : ℕ}
    (h : fetchPage record limit order includes cursor = .ok page)
    (hstart : pageStart record limit order cursor = some offset) :
    page.nextCursor =
      if offset + effectiveLimit limit < (orderedItems record order).length then
        some (cursorAt (orderedItems record order) (offset + effectiveLimit limit)) else none := by
  rw [page_of_fetchPage h hstart]
  exact nextCursor_pageOf _ _ _ (effectiveLimit_pos limit)

variable (record limit order includes) in
def inputListing :
    Listing (fetchPage record limit order includes) InputItemPage.nextCursor where
  length := (orderedItems record order).length
  width := effectiveLimit limit
  start := pageStart record limit order
  cursorAt := cursorAt (orderedItems record order)
  width_pos := effectiveLimit_pos limit
  start_none := pageStart_none
  start_of_fetch := start_of_fetchPage
  fetch_of_start := fetchPage_of_start
  next_of_fetch := nextCursor_of_fetchPage

theorem data_of_fetchPage {cursor : Option String} {page : InputItemPage}
    (h : fetchPage record limit order includes cursor = .ok page) :
    page.data.map some =
      (covered (orderedItems record order).length (effectiveLimit limit)
        (pageStart record limit order) cursor).map
          (((orderedItems record order).map (projectItem includes))[·]?) := by
  obtain ⟨offset, hstart, rfl⟩ := fetchPage_ok.mp h
  have hlength : (orderedItems record order).length =
      ((orderedItems record order).map (projectItem includes)).length := by simp
  rw [covered, hstart, elim_some, hlength, map_window, pageOf, map_take, map_drop]

variable (record limit order includes) in
/-- A reader who starts without a cursor and follows the cursors gets every page, and with them
every item of the record once. -/
structure Lossless (calls : List (Option String × InputItemPage)) : Prop where
  walk : Walk (fetchPage record limit order includes) InputItemPage.nextCursor none calls
  data : calls.flatMap (·.2.data) = (orderedItems record order).map (projectItem includes)
  once : (inputListing record limit order includes).coveredBy calls =
    List.range (orderedItems record order).length
  hasMore : ∀ i (h : i < calls.length),
    (calls.get ⟨i, h⟩).2.hasMore = true ↔ i + 1 < calls.length

theorem lossless_of_covered {calls : List (Option String × InputItemPage)}
    (hwalk : Walk (fetchPage record limit order includes) InputItemPage.nextCursor none calls)
    (hcovered : (inputListing record limit order includes).coveredBy calls =
      List.range (orderedItems record order).length) :
    Lossless record limit order includes calls := by
  refine ⟨hwalk, ?_, hcovered, ?_⟩
  · exact (inputListing record limit order includes).flatMap_eq_of_covered (by simp [inputListing])
      data_of_fetchPage hwalk hcovered
  · intro i hi
    rw [← hwalk.next_isSome_iff i hi]
    obtain ⟨offset, _, hpage⟩ := fetchPage_ok.mp (hwalk.fetch_of_mem (get_mem calls ⟨i, hi⟩))
    rw [hpage, hasMore_pageOf _ _ _ (effectiveLimit_pos limit)]

/-- No entry is called like the number at which a page stops behind an entry that is not an
object. -/
def OffsetsFree (entries : List Json) (width : ℕ) : Prop :=
  ∀ k, 0 < k → k * width < entries.length → ∀ last, entries[k * width - 1]? = some last →
    last.asObj = none → ∀ entry ∈ entries, itemId entry ≠ some (usizeText (k * width))

theorem pageStart_cursorAt {stop : ℕ} (hpos : 0 < stop)
    (hlt : stop < (orderedItems record order).length)
    (hsize : (orderedItems record order).length < 2 ^ 63) {last : Json}
    (hlast : (orderedItems record order)[stop - 1]? = some last) :
    pageStart record limit order (some (cursorAt (orderedItems record order) stop)) = some stop ↔
      (itemId last = none →
        ∀ item ∈ orderedItems record order, itemId item ≠ some (usizeText stop)) := by
  have hmax : 2 ^ 63 + 100 ≤ u64Max := by decide
  have hlimit := effectiveLimit_le limit
  rw [pageStart_eq, ← cursorOffset_pageNextCursor hpos hlt (by omega) hlast
    (pageNextCursor_true hpos hlt)]
  constructor
  · intro h
    exact h.1
  · intro h
    exact ⟨h, by omega⟩

theorem number_free_iff {entries items : List Json} (h : List.Forall₂ Identified entries items)
    (n : ℕ) : (∀ item ∈ items, itemId item ≠ some (usizeText n)) ↔
      ∀ entry ∈ entries, itemId entry ≠ some (usizeText n) := by
  induction h with
  | nil => simp
  | cons hhead _ ih => rw [List.forall_mem_cons, List.forall_mem_cons, ih, Ne, Ne, hhead.number_iff]

theorem length_arrange (order : Order) (items : List Json) :
    (order.arrange items).length = items.length := by
  cases order with
  | ascending => rfl
  | descending => exact length_reverse

theorem faithful_iff_offsetsFree (hsize : (inputEntries record).length < 2 ^ 63) :
    (inputListing record limit order includes).Faithful ↔
      OffsetsFree (order.arrange (inputEntries record)) (effectiveLimit limit) := by
  have hrel : List.Forall₂ Identified (order.arrange (inputEntries record))
      (orderedItems record order) := forall₂_arrange order record
  have hlength := hrel.length_eq
  have hfit : (orderedItems record order).length < 2 ^ 63 := by
    rw [← hlength, length_arrange]
    exact hsize
  refine forall_congr' fun k => forall_congr' fun hk => ?_
  rw [hlength]
  refine forall_congr' fun hlt => ?_
  -- the last entry of the page and the item it became
  have hpos : 0 < k * effectiveLimit limit := Nat.mul_pos hk (effectiveLimit_pos limit)
  have hlt' : k * effectiveLimit limit < (orderedItems record order).length := hlt
  have hi : k * effectiveLimit limit - 1 < (orderedItems record order).length := by omega
  have hi' : k * effectiveLimit limit - 1 < (order.arrange (inputEntries record)).length := by
    rw [hlength]
    exact hi
  have hlast := hrel.get hi' hi
  refine (pageStart_cursorAt hpos hlt' hfit (getElem?_eq_getElem hi)).trans ?_
  rw [getElem?_eq_getElem hi', number_free_iff hrel]
  simp only [Option.some.injEq, forall_eq']
  exact imp_congr_left hlast.none_iff

/-- Pages of input items lose nothing exactly when no entry is called like a position at which
the listing falls back to a bare number. -/
theorem pagination_lossless_iff (record : ResponseRecord) (limit : ℕ) (order : Order)
    (includes : IncludeFields) (hsize : (inputEntries record).length < 2 ^ 63) :
    (∃ calls, Lossless record limit order includes calls) ↔
      OffsetsFree (order.arrange (inputEntries record)) (effectiveLimit limit) := by
  rw [← faithful_iff_offsetsFree hsize, ← Listing.covers_iff_faithful]
  constructor
  · rintro ⟨calls, h⟩
    exact ⟨calls, h.walk, h.once⟩
  · rintro ⟨calls, hwalk, hcovered⟩
    exact ⟨calls, lossless_of_covered hwalk hcovered⟩

def recordOf (input : Json) : ResponseRecord where
  id := "resp_1"
  owner := ⟨"tenant", "issuer", "alice"⟩
  createdAt := 0
  model := "m"
  responseObject := .null
  input := input
  messages := .null

def allFields : IncludeFields := fun _ => true

theorem pagination_lossless_texts :
    (inputEntries (recordOf (.arr [.str "a", .str "b", .obj [("id", .str "c")]]))).length < 2 ^ 63 ∧
    ∃ calls, Lossless (recordOf (.arr [.str "a", .str "b", .obj [("id", .str "c")]])) 1 .ascending
      allFields calls := by
  have hentries : inputEntries (recordOf (.arr [.str "a", .str "b", .obj [("id", .str "c")]])) =
      [.str "a", .str "b", .obj [("id", .str "c")]] := by rfl
  have hsize : (inputEntries (recordOf (.arr [.str "a", .str "b", .obj [("id", .str "c")]]))).length
      < 2 ^ 63 := by decide
  refine ⟨hsize, (pagination_lossless_iff _ _ _ _ hsize).mpr ?_⟩
  rw [hentries]
  intro k hk hlt last hlast hobj entry hentry hid
  have hc : some "c" = some (usizeText (k * effectiveLimit 1)) := by
    rcases mem_cons.mp hentry with rfl | hentry
    · cases hid
    rcases mem_cons.mp hentry with rfl | hentry
    · cases hid
    · obtain rfl := mem_singleton.mp hentry
      exact hid
  have hdigit : ('c' : Char).isDigit = true := by
    apply isDigit_of_mem_decimal (n := k * effectiveLimit 1)
    have htext : ("c" : String).toList = decimal (k * effectiveLimit 1) :=
      (congrArg String.toList (Option.some.inj hc)).trans String.toList_ofList
    rw [← htext]
    decide
  exact absurd hdigit (by decide)

/-- An entry called like a number takes the place of a position: behind the first of three
entries the listing ends. -/
theorem numbered_entry_ends_listing :
    fetchPage (recordOf (.arr [.str "x", .obj [("id", .str "5")], .obj [("id", .str "1")]])) 1
        .ascending allFields none =
      .ok { data := [.str "x"], nextCursor := some "1", hasMore := true } ∧
    fetchPage (recordOf (.arr [.str "x", .obj [("id", .str "5")], .obj [("id", .str "1")]])) 1
        .ascending allFields (some "1") =
      .ok { data := [], nextCursor := none, hasMore := false } ∧
    ¬∃ calls, Lossless
      (recordOf (.arr [.str "x", .obj [("id", .str "5")], .obj [("id", .str "1")]])) 1 .ascending
      allFields calls := by
  refine ⟨by rfl, by rfl, ?_⟩
  rintro ⟨calls, h⟩
  have hentries : inputEntries
      (recordOf (.arr [.str "x", .obj [("id", .str "5")], .obj [("id", .str "1")]])) =
      [.str "x", .obj [("id", .str "5")], .obj [("id", .str "1")]] := by rfl
  have hfree := (faithful_iff_offsetsFree (by decide)).mp
    ((Listing.covers_iff_faithful _).mp ⟨calls, h.walk, h.once⟩)
  rw [hentries] at hfree
  apply hfree 1 Nat.one_pos (by decide) (.str "x") rfl rfl (.obj [("id", .str "1")])
  · exact mem_cons_of_mem _ (mem_cons_of_mem _ mem_cons_self)
  · rfl

end InputItemPages
