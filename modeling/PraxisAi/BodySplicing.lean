import Mathlib.Data.List.Basic
import Mathlib.Data.List.Forall2
import PraxisAi.FallibleSteps

/-! # Splicing a request body

The body is scanned for its top-level members without being parsed, and is written again with the
members that the state owns replaced. Below the scanner stands the grammar of JSON texts, in bytes;
that bytes from 128 on make up characters is left open. -/
namespace BodySplicing

open List

abbrev Bytes := List UInt8

section Grammar

def isJsonSpace (b : UInt8) : Bool := b = 32 || b = 9 || b = 10 || b = 13

def Space (text : Bytes) : Prop := ∀ b ∈ text, isJsonSpace b = true

def isDigit (b : UInt8) : Bool := decide (48 ≤ b.toNat) && decide (b.toNat ≤ 57)

def Digits (text : Bytes) : Prop := text ≠ [] ∧ ∀ b ∈ text, isDigit b = true

def isHexDigit (b : UInt8) : Bool :=
  isDigit b || decide (65 ≤ b.toNat ∧ b.toNat ≤ 70) || decide (97 ≤ b.toNat ∧ b.toNat ≤ 102)

structure Number (text : Bytes) : Prop where
  parts : ∃ sign int frac exp : Bytes, text = sign ++ int ++ frac ++ exp ∧
    (sign = [] ∨ sign = [45]) ∧ Digits int ∧ (int.head? = some 48 → int = [48]) ∧
    (frac = [] ∨ ∃ digits, frac = 46 :: digits ∧ Digits digits) ∧
    (exp = [] ∨ ∃ e sign digits, exp = e :: sign ++ digits ∧ e ∈ [101, 69] ∧
      sign ∈ [[], [43], [45]] ∧ Digits digits)

def literals : List Bytes :=
  [[116, 114, 117, 101], [102, 97, 108, 115, 101], [110, 117, 108, 108]]

def Scalar (text : Bytes) : Prop := text ∈ literals ∨ Number text

inductive StringBody : Bytes → Prop where
  | nil : StringBody []
  | plain {b rest} : 32 ≤ b.toNat → b ≠ 34 → b ≠ 92 → StringBody rest → StringBody (b :: rest)
  | escape {c rest} : c ∈ [34, 92, 47, 98, 102, 110, 114, 116] → StringBody rest →
      StringBody (92 :: c :: rest)
  | unicode {a b c d rest} : (∀ h ∈ [a, b, c, d], isHexDigit h = true) → StringBody rest →
      StringBody (92 :: 117 :: a :: b :: c :: d :: rest)

def quoted (body : Bytes) : Bytes := 34 :: body ++ [34]

inductive Kind where
  | value
  | items
  | members

inductive Text : Kind → Bytes → Prop where
  | scalar {t} : Scalar t → Text .value t
  | string {body} : StringBody body → Text .value (quoted body)
  | emptyArray {w} : Space w → Text .value (91 :: w ++ [93])
  | array {t} : Text .items t → Text .value (91 :: t ++ [93])
  | emptyObject {w} : Space w → Text .value (123 :: w ++ [125])
  | object {t} : Text .members t → Text .value (123 :: t ++ [125])
  | item {w v w'} : Space w → Text .value v → Space w' → Text .items (w ++ v ++ w')
  | items {t u} : Text .items t → Text .items u → Text .items (t ++ 44 :: u)
  | member {w key w₁ w₂ v w₃} : Space w → StringBody key → Space w₁ → Space w₂ → Text .value v →
      Space w₃ → Text .members (w ++ quoted key ++ w₁ ++ 58 :: w₂ ++ v ++ w₃)
  | members {t u} : Text .members t → Text .members u → Text .members (t ++ 44 :: u)

structure Member where
  before : Bytes
  key : Bytes
  after : Bytes
  between : Bytes
  value : Bytes
  behind : Bytes
  deriving DecidableEq

structure Member.Valid (member : Member) : Prop where
  before : Space member.before
  key : StringBody member.key
  after : Space member.after
  between : Space member.between
  value : Text .value member.value
  behind : Space member.behind

def Member.head (member : Member) : Bytes :=
  quoted member.key ++ member.after ++ 58 :: member.between

def Member.text (member : Member) : Bytes :=
  member.before ++ member.head ++ member.value ++ member.behind

def tailText (trail : Bytes) : List Member → Bytes
  | [] => 125 :: trail
  | member :: rest => 44 :: (member.text ++ tailText trail rest)

inductive ObjectText : List Member → Bytes → Prop where
  | empty {lead inner trail} : Space lead → Space inner → Space trail →
      ObjectText [] (lead ++ 123 :: (inner ++ 125 :: trail))
  | members {lead member rest trail} : Space lead → Space trail →
      (∀ other ∈ member :: rest, other.Valid) →
      ObjectText (member :: rest) (lead ++ 123 :: (member.text ++ tailText trail rest))

end Grammar

section Scanner

/-- The first half of a surrogate pair, by the first two of its four digits. -/
def isHighHalf (a b : UInt8) : Bool :=
  [68, 100].contains a && [56, 57, 65, 66, 97, 98].contains b

def isLowHalf (a b : UInt8) : Bool :=
  [68, 100].contains a && [67, 68, 69, 70, 99, 100, 101, 102].contains b

/-- No escape of a string is half of a surrogate pair without the other half. -/
def paired : Bytes → Bool
  | 92 :: 117 :: a :: b :: _ :: _ :: 92 :: 117 :: a' :: b' :: c :: d :: rest =>
    if isHighHalf a b then isLowHalf a' b' && paired rest
    else !isLowHalf a b && paired (92 :: 117 :: a' :: b' :: c :: d :: rest)
  | 92 :: 117 :: a :: b :: _ :: _ :: rest => !isHighHalf a b && !isLowHalf a b && paired rest
  | 92 :: _ :: rest => paired rest
  | _ :: rest => paired rest
  | [] => true

def Utf8 (text : Bytes) : Prop := ∃ chars : List Char, text = chars.flatMap String.utf8EncodeChar

/-- The library's reader of a quoted name: of the strings of the grammar it refuses those with half
of a surrogate pair. -/
structure NameReader where
  read : Bytes → Option String
  reads_iff : ∀ body, StringBody body → Utf8 body →
    ((read (quoted body)).isSome = true ↔ paired body = true)

inductive TopLevelField where
  | input
  | stream
  | tools
  | toolChoice
  | previousResponseId
  | conversation
  | other
  deriving DecidableEq

def TopLevelField.ofName (name : String) : TopLevelField :=
  if name = "input" then .input
  else if name = "stream" then .stream
  else if name = "tools" then .tools
  else if name = "tool_choice" then .toolChoice
  else if name = "previous_response_id" then .previousResponseId
  else if name = "conversation" then .conversation
  else .other

structure TopLevelMember where
  name : TopLevelField
  keyStart : ℕ
  valueStart : ℕ
  valueEnd : ℕ
  deriving DecidableEq

def isAsciiSpace (b : UInt8) : Bool := isJsonSpace b || b = 12

def skipJsonWhitespace (rest : Bytes) : ℕ := (rest.takeWhile isAsciiSpace).length

def stringLoop : Bool → ℕ → Bytes → Except String ℕ
  | _, _, [] => .error "unterminated JSON string"
  | true, read, _ :: rest => stringLoop false (read + 1) rest
  | false, read, b :: rest =>
    if b = 92 then stringLoop true (read + 1) rest
    else if b = 34 then .ok (read + 1)
    else stringLoop false (read + 1) rest

def scanJsonString (rest : Bytes) : Except String ℕ :=
  match rest with
  | 34 :: rest => stringLoop false 1 rest
  | _ => .error "expected a JSON string"

/-- The loop over a nested value; inside a string it reads on as `stringLoop` does. -/
def nestedLoop (closing : UInt8) : Option Bool → ℕ → ℕ → Bytes → Except String ℕ
  | none, _, _, [] => .error "unterminated JSON value"
  | some _, _, _, [] => .error "unterminated JSON string"
  | some true, depth, read, _ :: rest => nestedLoop closing (some false) depth (read + 1) rest
  | some false, depth, read, b :: rest =>
    if b = 92 then nestedLoop closing (some true) depth (read + 1) rest
    else if b = 34 then nestedLoop closing none depth (read + 1) rest
    else nestedLoop closing (some false) depth (read + 1) rest
  | none, depth, read, b :: rest =>
    if b = 34 then nestedLoop closing (some false) depth (read + 1) rest
    else if b = 123 ∨ b = 91 then nestedLoop closing none (depth + 1) (read + 1) rest
    else if b = 125 ∨ b = 93 then
      if depth = 0 then .error "unbalanced JSON value"
      else if depth = 1 then
        if b = closing then .ok (read + 1) else .error "mismatched JSON delimiters"
      else nestedLoop closing none (depth - 1) (read + 1) rest
    else nestedLoop closing none depth (read + 1) rest

/-- The bytes of a scalar, up to the next delimiter and without the spaces before that. -/
def scalarLength (rest : Bytes) : ℕ :=
  ((rest.takeWhile fun b => !(b = 44 || b = 125 || b = 93)).reverse.dropWhile isAsciiSpace).length

def scanJsonValue (rest : Bytes) : Except String ℕ :=
  match rest with
  | [] => .error "missing JSON value"
  | b :: tail =>
    if b = 34 then scanJsonString rest
    else if b = 123 then nestedLoop 125 none 1 1 tail
    else if b = 91 then nestedLoop 93 none 1 1 tail
    else if 0 < scalarLength rest then .ok (scalarLength rest) else .error "empty JSON value"

variable (names : NameReader)

def memberLoop : ℕ → ℕ → Bytes → Except String (List TopLevelMember)
  | 0, _, _ => .error "out of fuel"
  | fuel + 1, cursor, rest => do
    let keyLength ← scanJsonString rest
    match names.read (rest.take keyLength) with
    | none => .error "invalid JSON field name"
    | some name =>
      let colon := keyLength + skipJsonWhitespace (rest.drop keyLength)
      if (rest.drop colon).head? ≠ some 58 then .error "expected a colon after a JSON field name"
      else
        let start := colon + 1 + skipJsonWhitespace (rest.drop (colon + 1))
        let length ← scanJsonValue (rest.drop start)
        let found : TopLevelMember :=
          ⟨.ofName name, cursor, cursor + start, cursor + start + length⟩
        let stop := start + length + skipJsonWhitespace (rest.drop (start + length))
        match (rest.drop stop).head? with
        | some 44 =>
          let next := stop + 1 + skipJsonWhitespace (rest.drop (stop + 1))
          let more ← memberLoop fuel (cursor + next) (rest.drop next)
          return found :: more
        | some 125 => return [found]
        | _ => .error "expected a comma or closing brace"

def scanTopLevelObject (body : Bytes) : Except String (List TopLevelMember) :=
  let cursor := skipJsonWhitespace body
  if (body.drop cursor).head? ≠ some 123 then .error "expected a JSON object"
  else
    let first := cursor + 1 + skipJsonWhitespace (body.drop (cursor + 1))
    if (body.drop first).head? = some 125 then .ok []
    else memberLoop names (body.length + 1) first (body.drop first)

end Scanner

section Splicing

/-- What the splice reads of the state, with every value as the text that it is written as. -/
structure ResponsesState where
  historyRehydrated : Bool
  requiresRebuild : Bool
  requestBody : String → Option Bytes
  valid : ∀ key text, requestBody key = some text → Text .value text

def selectedStateField (state : ResponsesState) : TopLevelField → Option Bytes
  | .tools => if state.requiresRebuild then state.requestBody "tools" else none
  | .toolChoice => if state.requiresRebuild then state.requestBody "tool_choice" else none
  | _ => none

def selectedBodySlice (body : Bytes) (start stop : ℕ) : Except String Bytes :=
  if start ≤ stop ∧ stop ≤ body.length then .ok ((body.drop start).take (stop - start))
  else .error "openai_responses_proxy: invalid selected request body range"

def skipped (state : ResponsesState) (field : TopLevelField) : Bool :=
  state.historyRehydrated && (field = .previousResponseId || field = .conversation)

def replacement (state : ResponsesState) (input : Bytes) (field : TopLevelField) : Option Bytes :=
  if field = .input then some input
  else match selectedStateField state field with
    | some text => some text
    | none => if field = .stream then state.requestBody "stream" else none

def spliceMembers (body : Bytes) (state : ResponsesState) (input : Bytes) :
    List TopLevelMember → Except String (List Bytes)
  | [] => .ok []
  | member :: rest =>
    if skipped state member.name then spliceMembers body state input rest
    else do
      let head ← selectedBodySlice body member.keyStart member.valueStart
      let value ← match replacement state input member.name with
        | some text => .ok text
        | none => selectedBodySlice body member.valueStart member.valueEnd
      let texts ← spliceMembers body state input rest
      return (head ++ value) :: texts

def inputKey : Bytes := quoted [105, 110, 112, 117, 116] ++ [58]

def toolsKey : Bytes := quoted [116, 111, 111, 108, 115] ++ [58]

def toolChoiceKey : Bytes := quoted [116, 111, 111, 108, 95, 99, 104, 111, 105, 99, 101] ++ [58]

def appended (state : ResponsesState) (members : List TopLevelMember) (field : TopLevelField)
    (key : Bytes) : List Bytes :=
  match selectedStateField state field with
  | none => []
  | some text => if members.any (fun member => decide (member.name = field)) then []
    else [key ++ text]

def selectedMembers (names : NameReader) (body : Bytes) : Except String (List TopLevelMember) :=
  match scanTopLevelObject names body with
  | .ok members => .ok members
  | .error error => .error ("openai_responses_proxy: invalid selected request body: " ++ error)

def serializeSelectedBody (names : NameReader) (maxRewrittenBodyBytes : ℕ) (body : Bytes)
    (state : ResponsesState) (reconcile : List TopLevelMember → Except String Bytes) :
    Except String (Except ℕ Bytes) := do
  let members ← selectedMembers names body
  let input ← reconcile members
  let texts ← spliceMembers body state input members
  let texts := texts ++
    (if members.any (fun member => decide (member.name = .input)) then []
      else [inputKey ++ input]) ++
    appended state members .tools toolsKey ++ appended state members .toolChoice toolChoiceKey
  let serialized := 123 :: [44].intercalate texts ++ [125]
  return if maxRewrittenBodyBytes < serialized.length then .error serialized.length
    else .ok serialized

end Splicing

section Values

theorem isAsciiSpace_of_space {w : Bytes} (h : Space w) : ∀ b ∈ w, isAsciiSpace b = true := by
  intro b hb
  rw [isAsciiSpace, h b hb, Bool.true_or]

theorem skip_append {w : Bytes} (h : Space w) {b : UInt8} (hb : isAsciiSpace b = false)
    (rest : Bytes) : skipJsonWhitespace (w ++ b :: rest) = w.length := by
  rw [skipJsonWhitespace, takeWhile_append_of_pos (isAsciiSpace_of_space h), takeWhile_cons, hb]
  simp

theorem plain_of_hex {b : UInt8} (h : isHexDigit b = true) : b ≠ 92 ∧ b ≠ 34 := by
  constructor <;> rintro rfl <;> exact absurd h (by decide)

theorem stringLoop_plain {b : UInt8} (hb : b ≠ 92 ∧ b ≠ 34) (read : ℕ) (rest : Bytes) :
    stringLoop false read (b :: rest) = stringLoop false (read + 1) rest := by
  rw [stringLoop, if_neg hb.1, if_neg hb.2]

theorem nestedLoop_plain {b : UInt8} (hb : b ≠ 92 ∧ b ≠ 34) (closing : UInt8) (depth read : ℕ)
    (rest : Bytes) : nestedLoop closing (some false) depth read (b :: rest) =
      nestedLoop closing (some false) depth (read + 1) rest := by
  rw [nestedLoop, if_neg hb.1, if_neg hb.2]

theorem stringLoop_body {body : Bytes} (h : StringBody body) (read : ℕ) (rest : Bytes) :
    stringLoop false read (body ++ 34 :: rest) = .ok (read + body.length + 1) := by
  induction h generalizing read with
  | nil => rfl
  | plain hb hquote hslash _ ih =>
    rw [cons_append, stringLoop_plain ⟨hslash, hquote⟩, ih, length_cons]
    congr 1
    omega
  | escape _ _ ih =>
    rw [cons_append, cons_append, stringLoop, if_pos rfl, stringLoop, ih, length_cons, length_cons]
    congr 1
    omega
  | unicode hhex _ ih =>
    simp only [cons_append]
    rw [stringLoop, if_pos rfl, stringLoop, stringLoop_plain (plain_of_hex (hhex _ (by simp))),
      stringLoop_plain (plain_of_hex (hhex _ (by simp))),
      stringLoop_plain (plain_of_hex (hhex _ (by simp))),
      stringLoop_plain (plain_of_hex (hhex _ (by simp))), ih]
    simp only [length_cons]
    congr 1
    omega

theorem scanJsonString_quoted {body : Bytes} (h : StringBody body) (rest : Bytes) :
    scanJsonString (quoted body ++ rest) = .ok (quoted body).length := by
  have htext : quoted body ++ rest = 34 :: (body ++ 34 :: rest) := by simp [quoted]
  rw [htext, scanJsonString, stringLoop_body h]
  simp [quoted]
  omega

theorem nestedLoop_body {body : Bytes} (h : StringBody body) (closing : UInt8) (depth read : ℕ)
    (rest : Bytes) : nestedLoop closing (some false) depth read (body ++ 34 :: rest) =
      nestedLoop closing none depth (read + body.length + 1) rest := by
  induction h generalizing read with
  | nil => rfl
  | plain hb hquote hslash _ ih =>
    rw [cons_append, nestedLoop_plain ⟨hslash, hquote⟩, ih, length_cons]
    congr 1
    omega
  | escape _ _ ih =>
    rw [cons_append, cons_append, nestedLoop, if_pos rfl, nestedLoop, ih, length_cons, length_cons]
    congr 1
    omega
  | unicode hhex _ ih =>
    simp only [cons_append]
    rw [nestedLoop, if_pos rfl, nestedLoop, nestedLoop_plain (plain_of_hex (hhex _ (by simp))),
      nestedLoop_plain (plain_of_hex (hhex _ (by simp))),
      nestedLoop_plain (plain_of_hex (hhex _ (by simp))),
      nestedLoop_plain (plain_of_hex (hhex _ (by simp))), ih]
    simp only [length_cons]
    congr 1
    omega

def Quiet (b : UInt8) : Prop := b ≠ 34 ∧ b ≠ 123 ∧ b ≠ 91 ∧ b ≠ 125 ∧ b ≠ 93

/-- A text that leaves the loop over a nested value where it is. -/
def Neutral (text : Bytes) : Prop :=
  ∀ closing depth read rest, 1 ≤ depth → nestedLoop closing none depth read (text ++ rest) =
    nestedLoop closing none depth (read + text.length) rest

theorem neutral_append {t u : Bytes} (ht : Neutral t) (hu : Neutral u) : Neutral (t ++ u) := by
  intro closing depth read rest hdepth
  rw [append_assoc, ht _ _ _ _ hdepth, hu _ _ _ _ hdepth, length_append, Nat.add_assoc]

theorem neutral_quiet {text : Bytes} (h : ∀ b ∈ text, Quiet b) : Neutral text := by
  intro closing depth read rest hdepth
  induction text generalizing read with
  | nil => rfl
  | cons b text ih =>
    obtain ⟨hquote, hbrace, hbracket, hbrace', hbracket'⟩ := h b mem_cons_self
    rw [cons_append, nestedLoop, if_neg hquote, if_neg (not_or.mpr ⟨hbrace, hbracket⟩),
      if_neg (not_or.mpr ⟨hbrace', hbracket'⟩),
      ih (fun c hc => h c (mem_cons_of_mem _ hc)), length_cons]
    congr 1
    omega

theorem neutral_space {w : Bytes} (h : Space w) : Neutral w := by
  apply neutral_quiet
  intro b hb
  have hspace := h b hb
  refine ⟨?_, ?_, ?_, ?_, ?_⟩ <;> rintro rfl <;> exact absurd hspace (by decide)

def scalarBytes : Bytes :=
  [43, 45, 46, 48, 49, 50, 51, 52, 53, 54, 55, 56, 57, 69, 97, 101, 102, 108, 110, 114, 115, 116,
    117]

theorem mem_scalarBytes_of_isDigit {b : UInt8} (h : isDigit b = true) : b ∈ scalarBytes := by
  have hall : ∀ n < 256, isDigit (UInt8.ofNat n) = true → UInt8.ofNat n ∈ scalarBytes := by
    decide +kernel
  have hb := hall b.toNat b.toNat_lt
  rw [UInt8.ofNat_toNat] at hb
  exact hb h

theorem scalar_bytes {t : Bytes} (h : Scalar t) : t ≠ [] ∧ ∀ b ∈ t, b ∈ scalarBytes := by
  have hdigits : ∀ {ds : Bytes}, Digits ds → ∀ b ∈ ds, b ∈ scalarBytes := fun hds b hb =>
    mem_scalarBytes_of_isDigit (hds.2 b hb)
  rcases h with h | ⟨sign, int, frac, exp, rfl, hsign, hint, -, hfrac, hexp⟩
  · have hall : ∀ t ∈ literals, t ≠ [] ∧ ∀ b ∈ t, b ∈ scalarBytes := by decide +kernel
    exact hall t h
  · constructor
    · intro hnil
      simp only [append_eq_nil_iff] at hnil
      exact hint.1 hnil.1.1.2
    · intro b hb
      rcases mem_append.mp hb with hb | hb
      · rcases mem_append.mp hb with hb | hb
        · rcases mem_append.mp hb with hb | hb
          · rcases hsign with rfl | rfl
            · cases hb
            · rw [mem_singleton.mp hb]
              decide
          · exact hdigits hint b hb
        · rcases hfrac with rfl | ⟨digits, rfl, hfrac⟩
          · cases hb
          · rcases mem_cons.mp hb with rfl | hb
            · decide
            · exact hdigits hfrac b hb
      · rcases hexp with rfl | ⟨e, esign, digits, rfl, he, hesign, hexp⟩
        · cases hb
        · rcases mem_append.mp hb with hb | hb
          · rcases mem_cons.mp hb with rfl | hb
            · have hall : ∀ e ∈ ([101, 69] : Bytes), e ∈ scalarBytes := by decide +kernel
              exact hall _ he
            · have hall : ∀ sign ∈ ([[], [43], [45]] : List Bytes),
                  ∀ b ∈ sign, b ∈ scalarBytes := by decide +kernel
              exact hall esign hesign b hb
          · exact hdigits hexp b hb

theorem quiet_scalar {b : UInt8} (h : b ∈ scalarBytes) :
    Quiet b ∧ isAsciiSpace b = false ∧ b ≠ 44 := by
  have hall : ∀ b ∈ scalarBytes, (b ≠ 34 ∧ b ≠ 123 ∧ b ≠ 91 ∧ b ≠ 125 ∧ b ≠ 93) ∧
      isAsciiSpace b = false ∧ b ≠ 44 := by decide +kernel
  exact hall b h

theorem neutral_enclosed {t : Bytes} (h : Neutral t) {first last : UInt8}
    (hfirst : first = 123 ∨ first = 91) (hlast : last = 125 ∨ last = 93) :
    Neutral (first :: t ++ [last]) := by
  intro closing depth read rest hdepth
  have hquote : first ≠ 34 := by rcases hfirst with rfl | rfl <;> decide
  have hquote' : last ≠ 34 := by rcases hlast with rfl | rfl <;> decide
  have hopen : ¬(last = 123 ∨ last = 91) := by rcases hlast with rfl | rfl <;> decide
  rw [append_assoc, cons_append, nestedLoop, if_neg hquote, if_pos hfirst,
    h _ _ _ _ (by omega), singleton_append, nestedLoop, if_neg hquote', if_neg hopen,
    if_pos hlast, if_neg (by omega), if_neg (by omega), Nat.add_sub_cancel]
  congr 1
  simp
  omega

theorem neutral_quoted {body : Bytes} (h : StringBody body) : Neutral (quoted body) := by
  intro closing depth read rest _
  have htext : quoted body ++ rest = 34 :: (body ++ 34 :: rest) := by simp [quoted]
  rw [htext, nestedLoop, if_pos rfl, nestedLoop_body h]
  congr 1
  simp [quoted]
  omega

theorem neutral_single {b : UInt8} (h : Quiet b) : Neutral [b] :=
  neutral_quiet fun c hc => by rw [mem_singleton.mp hc]; exact h

/-- Every text of the grammar is neutral, by its construction. -/
theorem neutral_text {kind : Kind} {t : Bytes} (h : Text kind t) : Neutral t := by
  induction h with
  | scalar h => exact neutral_quiet fun b hb => (quiet_scalar ((scalar_bytes h).2 b hb)).1
  | string h => exact neutral_quoted h
  | emptyArray h => exact neutral_enclosed (neutral_space h) (.inr rfl) (.inr rfl)
  | array _ ih => exact neutral_enclosed ih (.inr rfl) (.inr rfl)
  | emptyObject h => exact neutral_enclosed (neutral_space h) (.inl rfl) (.inl rfl)
  | object _ ih => exact neutral_enclosed ih (.inl rfl) (.inl rfl)
  | item hw _ hw' ih =>
    exact neutral_append (neutral_append (neutral_space hw) ih) (neutral_space hw')
  | items _ _ iht ihu =>
    rw [append_cons]
    exact neutral_append (neutral_append iht (neutral_single (by unfold Quiet; decide))) ihu
  | member hw hkey hw₁ hw₂ _ hw₃ ih =>
    rw [append_assoc, append_assoc, cons_append, append_cons]
    refine neutral_append (neutral_append (neutral_append (neutral_append (neutral_space hw)
      (neutral_quoted hkey)) (neutral_space hw₁)) (neutral_single (by unfold Quiet; decide))) ?_
    exact neutral_append (neutral_space hw₂) (neutral_append ih (neutral_space hw₃))
  | members _ _ iht ihu =>
    rw [append_cons]
    exact neutral_append (neutral_append iht (neutral_single (by unfold Quiet; decide))) ihu

theorem scanJsonValue_enclosed {t : Bytes} (h : Neutral t) {first last : UInt8}
    (hpair : first = 123 ∧ last = 125 ∨ first = 91 ∧ last = 93) (rest : Bytes) :
    scanJsonValue (first :: t ++ [last] ++ rest) = .ok (first :: t ++ [last]).length := by
  have hnested : nestedLoop last none 1 1 (t ++ last :: rest) =
      .ok (first :: t ++ [last]).length := by
    rw [h _ _ _ _ (Nat.le_refl 1)]
    rcases hpair with ⟨rfl, rfl⟩ | ⟨rfl, rfl⟩
    · simp [nestedLoop]
      omega
    · simp [nestedLoop]
      omega
  have htext : first :: t ++ [last] ++ rest = first :: (t ++ last :: rest) := by simp
  rw [htext, scanJsonValue]
  rcases hpair with ⟨rfl, rfl⟩ | ⟨rfl, rfl⟩
  · exact hnested
  · exact hnested

theorem scalarLength_eq {t w : Bytes} {d : UInt8} (more : Bytes) (h : Scalar t) (hw : Space w)
    (hd : d = 44 ∨ d = 125) : scalarLength (t ++ (w ++ d :: more)) = t.length := by
  obtain ⟨hne, hbytes⟩ := scalar_bytes h
  have hstop : ∀ b ∈ t ++ w, (!(b = 44 || b = 125 || b = 93)) = true := by
    intro b hb
    rcases mem_append.mp hb with hb | hb
    · obtain ⟨hquiet, -, hcomma⟩ := quiet_scalar (hbytes b hb)
      simp [hcomma, hquiet.2.2.2.1, hquiet.2.2.2.2]
    · have hspace := hw b hb
      have hnot : b ≠ 44 ∧ b ≠ 125 ∧ b ≠ 93 := by
        refine ⟨?_, ?_, ?_⟩ <;> rintro rfl <;> exact absurd hspace (by decide)
      simp [hnot]
  have htake : (t ++ (w ++ d :: more)).takeWhile (fun b => !(b = 44 || b = 125 || b = 93)) =
      t ++ w := by
    rw [← append_assoc, takeWhile_append_of_pos hstop, takeWhile_cons]
    rcases hd with rfl | rfl <;> simp
  rw [scalarLength, htake, reverse_append, dropWhile_append_of_pos (by
    intro b hb
    exact isAsciiSpace_of_space hw b (mem_reverse.mp hb))]
  rcases hreverse : t.reverse with _ | ⟨b, rest⟩
  · exact absurd (reverse_eq_nil_iff.mp hreverse) hne
  · have hb : b ∈ t := mem_reverse.mp (by rw [hreverse]; exact mem_cons_self)
    rw [dropWhile_cons, (quiet_scalar (hbytes b hb)).2.1]
    simp only [Bool.false_eq_true, if_false]
    rw [← hreverse, length_reverse]

theorem scanJsonValue_eq {v w : Bytes} {d : UInt8} (more : Bytes) (h : Text .value v) (hw : Space w)
    (hd : d = 44 ∨ d = 125) : scanJsonValue (v ++ (w ++ d :: more)) = .ok v.length := by
  cases h with
  | scalar h =>
    have hlength := scalarLength_eq more h hw hd
    obtain ⟨hne, hbytes⟩ := scalar_bytes h
    rcases v with _ | ⟨b, v⟩
    · exact absurd rfl hne
    · obtain ⟨hquiet, -, -⟩ := quiet_scalar (hbytes b mem_cons_self)
      rw [cons_append, scanJsonValue, if_neg hquiet.1, if_neg hquiet.2.1, if_neg hquiet.2.2.1,
        ← cons_append, hlength, if_pos (length_pos_of_ne_nil hne)]
  | string h =>
    rename_i body
    have hscan := scanJsonString_quoted h (w ++ d :: more)
    rw [quoted, cons_append, cons_append] at hscan ⊢
    rw [scanJsonValue, if_pos rfl]
    exact hscan
  | emptyArray h => exact scanJsonValue_enclosed (neutral_space h) (.inr ⟨rfl, rfl⟩) _
  | array h => exact scanJsonValue_enclosed (neutral_text h) (.inr ⟨rfl, rfl⟩) _
  | emptyObject h => exact scanJsonValue_enclosed (neutral_space h) (.inl ⟨rfl, rfl⟩) _
  | object h => exact scanJsonValue_enclosed (neutral_text h) (.inl ⟨rfl, rfl⟩) _

theorem value_head {v : Bytes} (h : Text .value v) :
    ∃ b rest, v = b :: rest ∧ isAsciiSpace b = false := by
  cases h with
  | scalar h =>
    obtain ⟨hne, hbytes⟩ := scalar_bytes h
    rcases v with _ | ⟨b, v⟩
    · exact absurd rfl hne
    · exact ⟨b, v, rfl, (quiet_scalar (hbytes b mem_cons_self)).2.1⟩
  | string h => exact ⟨34, _, rfl, by decide⟩
  | emptyArray h => exact ⟨91, _, rfl, by decide⟩
  | array h => exact ⟨91, _, rfl, by decide⟩
  | emptyObject h => exact ⟨123, _, rfl, by decide⟩
  | object h => exact ⟨123, _, rfl, by decide⟩

end Values

section Members

variable (names : NameReader)

theorem drop_past (x y : Bytes) (n : ℕ) : (x ++ y).drop (x.length + n) = y.drop n := by
  rw [drop_append, drop_eq_nil_of_le (by omega), nil_append]
  congr 1
  omega

theorem slice_eq (pre t post : Bytes) :
    selectedBodySlice (pre ++ (t ++ post)) pre.length (pre.length + t.length) = .ok t := by
  rw [selectedBodySlice, if_pos (by simp only [length_append]; omega), drop_left,
    Nat.add_sub_cancel_left, take_left]

theorem Member.text_append (member : Member) (rest : Bytes) :
    member.text ++ rest =
      member.before ++ (member.head ++ (member.value ++ (member.behind ++ rest))) := by
  rw [Member.text]
  simp only [append_assoc]

theorem length_le_tailText (trail : Bytes) (members : List Member) :
    members.length ≤ (tailText trail members).length := by
  induction members with
  | nil => exact Nat.zero_le _
  | cons member rest ih =>
    rw [tailText, length_cons, length_cons, length_append]
    omega

structure Located (body : Bytes) (member : Member) (found : TopLevelMember) : Prop where
  name : ∃ name, names.read (quoted member.key) = some name ∧ found.name = .ofName name
  head : selectedBodySlice body found.keyStart found.valueStart = .ok member.head
  value : selectedBodySlice body found.valueStart found.valueEnd = .ok member.value

theorem located_behind {body pre rest : Bytes} {member : Member} {name : String}
    (hbody : body = pre ++ (member.head ++ (member.value ++ rest)))
    (hname : names.read (quoted member.key) = some name) :
    Located names body member ⟨.ofName name, pre.length, pre.length + member.head.length,
      pre.length + member.head.length + member.value.length⟩ := by
  subst hbody
  refine ⟨⟨name, hname, rfl⟩, slice_eq _ _ _, ?_⟩
  rw [← append_assoc, ← length_append]
  exact slice_eq _ _ _

/-- One round of the loop, up to the byte behind the member. -/
theorem memberLoop_round {member : Member} (h : member.Valid) (fuel cursor : ℕ) {d : UInt8}
    (hd : d = 44 ∨ d = 125) (more : Bytes) :
    memberLoop names (fuel + 1) cursor
        (member.head ++ (member.value ++ (member.behind ++ d :: more))) =
      match names.read (quoted member.key) with
      | none => .error "invalid JSON field name"
      | some name =>
        if d = 44 then do
          let found ← memberLoop names fuel (cursor + (member.head.length + (member.value.length +
            (member.behind.length + (1 + skipJsonWhitespace more)))))
            (more.drop (skipJsonWhitespace more))
          return ⟨.ofName name, cursor, cursor + member.head.length,
            cursor + member.head.length + member.value.length⟩ :: found
        else .ok [⟨.ofName name, cursor, cursor + member.head.length,
          cursor + member.head.length + member.value.length⟩] := by
  obtain ⟨b, vrest, hvalue, hspace⟩ := value_head h.value
  have hdspace : isAsciiSpace d = false := by rcases hd with rfl | rfl <;> decide
  have hhead : member.head = quoted member.key ++ (member.after ++ 58 :: member.between) := by
    rw [Member.head, append_assoc]
  have hlength : member.head.length = (quoted member.key).length + (member.after.length +
      (1 + member.between.length)) := by
    rw [hhead]
    simp only [length_append, length_cons]
    omega
  have htext : member.head ++ (member.value ++ (member.behind ++ d :: more)) =
      quoted member.key ++ (member.after ++ (58 :: (member.between ++ (member.value ++
        (member.behind ++ d :: more))))) := by
    rw [hhead]
    simp
  rw [memberLoop, htext, scanJsonString_quoted h.key]
  simp only [bind, Except.bind, take_left, drop_left]
  rcases names.read (quoted member.key) with _ | name
  · rfl
  · have hcolon := skip_append h.after (b := 58) (by decide)
      (member.between ++ (member.value ++ (member.behind ++ d :: more)))
    have hbetween : skipJsonWhitespace (member.between ++ (member.value ++
        (member.behind ++ d :: more))) = member.between.length := by
      rw [hvalue]
      exact skip_append h.between hspace _
    have hbehind := skip_append h.behind hdspace more
    have hscan := scanJsonValue_eq more h.value h.behind hd
    have hdropColon : ∀ t : Bytes, (quoted member.key ++ (member.after ++ 58 :: t)).drop
        ((quoted member.key).length + member.after.length) = 58 :: t := by
      intro t
      rw [drop_past, drop_left]
    have hdrop : ∀ (t : Bytes) n, (quoted member.key ++ (member.after ++ 58 :: t)).drop
        ((quoted member.key).length + member.after.length + 1 + n) = t.drop n := by
      intro t n
      rw [Nat.add_assoc, Nat.add_assoc, drop_past, drop_past, Nat.add_comm 1 n, drop_succ_cons]
    have hstart := fun t => hdrop t 0
    simp only [Nat.add_zero, drop_zero] at hstart
    have hrest := hdrop (member.between ++ (member.value ++ (member.behind ++ d :: more)))
    have hvaluePart := hrest member.between.length
    rw [drop_left] at hvaluePart
    have hbehindPart := hrest (member.between.length + member.value.length)
    rw [drop_past, drop_left, ← Nat.add_assoc] at hbehindPart
    have hend := hrest (member.between.length + (member.value.length + member.behind.length))
    rw [drop_past, drop_past, drop_left, ← Nat.add_assoc, ← Nat.add_assoc] at hend
    have hdelimiter : ∀ n, (d :: more).drop (1 + n) = more.drop n := fun n => by
      rw [Nat.add_comm, drop_succ_cons]
    have hnext := fun n => hrest (member.between.length + (member.value.length +
      (member.behind.length + (1 + n))))
    simp only [drop_past, hdelimiter] at hnext
    simp only [← Nat.add_assoc] at hnext
    have hmore := hnext 0
    rw [Nat.add_zero, drop_zero] at hmore
    have hsum : (quoted member.key).length + member.after.length + 1 + member.between.length =
        member.head.length := by omega
    simp only [hcolon, hdropColon, head?_cons, ne_eq, not_true_eq_false, if_false, hstart,
      hbetween, hvaluePart, hscan, hbehindPart, hbehind, hend]
    simp only [hsum] at hnext hmore
    rcases hd with rfl | rfl
    · simp only [hmore, hnext, hsum]
      simp only [Nat.add_assoc, if_true]
    · simp only [hsum]
      rw [if_neg (by decide)]
      rfl

/-- The loop finds all members, unless one of their names cannot be read. -/
theorem memberLoop_all (body pre : Bytes) {trail : Bytes} {member : Member} {rest : List Member}
    {fuel : ℕ}
    (hvalid : ∀ other ∈ member :: rest, other.Valid) (hfuel : rest.length < fuel)
    (hbody : body = pre ++
      (member.head ++ (member.value ++ (member.behind ++ tailText trail rest)))) :
    ((∀ other ∈ member :: rest, (names.read (quoted other.key)).isSome = true) →
      ∃ founds, memberLoop names fuel pre.length (member.head ++ (member.value ++
        (member.behind ++ tailText trail rest))) = .ok founds ∧
        List.Forall₂ (Located names body) (member :: rest) founds) ∧
    (¬(∀ other ∈ member :: rest, (names.read (quoted other.key)).isSome = true) →
      memberLoop names fuel pre.length (member.head ++ (member.value ++
        (member.behind ++ tailText trail rest))) = .error "invalid JSON field name") := by
  have hmember := hvalid member mem_cons_self
  obtain ⟨fuel, rfl⟩ := Nat.exists_eq_succ_of_ne_zero (Nat.ne_of_gt (Nat.zero_lt_of_lt hfuel))
  induction rest generalizing member pre fuel with
  | nil =>
    rw [tailText, memberLoop_round names hmember _ _ (.inr rfl)]
    rcases hname : names.read (quoted member.key) with _ | name
    · refine ⟨fun hall => ?_, fun _ => rfl⟩
      have hsome := hall member mem_cons_self
      rw [hname] at hsome
      cases hsome
    · refine ⟨fun _ => ⟨_, rfl, .cons (located_behind names hbody hname) .nil⟩, fun hnot => ?_⟩
      exfalso
      apply hnot
      intro other hother
      rw [mem_singleton.mp hother, hname]
      rfl
  | cons next rest ih =>
    have hnext := hvalid next (mem_cons_of_mem _ mem_cons_self)
    have hmore := next.text_append (tailText trail rest)
    have hskip : skipJsonWhitespace (next.text ++ tailText trail rest) = next.before.length := by
      rw [hmore]
      exact skip_append hnext.before (b := 34) (by decide) _
    have hbody' : body = (pre ++ (member.head ++ (member.value ++ (member.behind ++
        (44 :: next.before))))) ++ (next.head ++ (next.value ++ (next.behind ++
          tailText trail rest))) := by
      rw [hbody, tailText, hmore]
      simp only [append_assoc, cons_append]
    have hcursor : (pre ++ (member.head ++ (member.value ++ (member.behind ++
        (44 :: next.before))))).length = pre.length + (member.head.length + (member.value.length +
          (member.behind.length + (1 + next.before.length)))) := by
      simp only [length_append, length_cons]
      omega
    rw [length_cons] at hfuel
    obtain ⟨fuel, rfl⟩ := Nat.exists_eq_succ_of_ne_zero
      (Nat.ne_of_gt (Nat.zero_lt_of_lt (Nat.lt_of_succ_lt_succ hfuel)))
    have hrest := ih _ (fun other hother => hvalid other (mem_cons_of_mem _ hother)) hbody'
      hnext fuel (by omega)
    rw [hcursor] at hrest
    rw [tailText, memberLoop_round names hmember _ _ (.inl rfl), hskip, hmore, drop_left]
    rcases hname : names.read (quoted member.key) with _ | name
    · refine ⟨fun hall => ?_, fun _ => rfl⟩
      have hsome := hall member mem_cons_self
      rw [hname] at hsome
      cases hsome
    · have hsome : (names.read (quoted member.key)).isSome = true := by rw [hname]; rfl
      constructor
      · intro hall
        obtain ⟨founds, hfounds, hlocated⟩ := hrest.1 fun other hother =>
          hall other (mem_cons_of_mem _ hother)
        refine ⟨⟨.ofName name, pre.length, pre.length + member.head.length,
          pre.length + member.head.length + member.value.length⟩ :: founds, ?_,
          .cons (located_behind names hbody hname) hlocated⟩
        dsimp only
        rw [if_pos rfl, hfounds]
        rfl
      · intro hnot
        have herror := hrest.2 fun hall => hnot fun other hother => by
          rcases mem_cons.mp hother with rfl | hother
          · exact hsome
          · exact hall other hother
        dsimp only
        rw [if_pos rfl, herror]
        rfl

end Members

section Results

variable (names : NameReader)

/-- The scanner finds exactly the members, unless one of their names cannot be read. -/
theorem scan_objectText {members : List Member} {body : Bytes} (h : ObjectText members body) :
    ((∀ member ∈ members, (names.read (quoted member.key)).isSome = true) →
      ∃ founds, scanTopLevelObject names body = .ok founds ∧
        List.Forall₂ (Located names body) members founds) ∧
    (¬(∀ member ∈ members, (names.read (quoted member.key)).isSome = true) →
      scanTopLevelObject names body = .error "invalid JSON field name") := by
  cases h with
  | empty hlead hinner htrail =>
    rename_i lead inner trail
    refine ⟨fun _ => ⟨[], ?_, .nil⟩, fun hnot => absurd (by simp) hnot⟩
    have hskip := skip_append hlead (b := 123) (by decide) (inner ++ 125 :: trail)
    have hinside := skip_append hinner (b := 125) (by decide) trail
    have hopen : (lead ++ 123 :: (inner ++ 125 :: trail)).drop (lead.length + 1) =
        inner ++ 125 :: trail := by rw [drop_past]; rfl
    have hclose : (lead ++ 123 :: (inner ++ 125 :: trail)).drop (lead.length + 1 + inner.length) =
        125 :: trail := by
      rw [Nat.add_assoc, drop_past, Nat.add_comm 1, drop_succ_cons, drop_left]
    simp only [scanTopLevelObject, hskip, drop_left, head?_cons, ne_eq, not_true_eq_false,
      if_false, hopen, hinside, hclose, if_true]
  | members hlead htrail hvalid =>
    rename_i lead member rest trail
    have hmember := hvalid member mem_cons_self
    rw [member.text_append]
    have hskip := skip_append hlead (b := 123) (by decide) (member.before ++ (member.head ++
      (member.value ++ (member.behind ++ tailText trail rest))))
    have hinside : skipJsonWhitespace (member.before ++ (member.head ++ (member.value ++
        (member.behind ++ tailText trail rest)))) = member.before.length :=
      skip_append hmember.before (b := 34) (by decide) _
    have hopen : (lead ++ 123 :: (member.before ++ (member.head ++ (member.value ++
        (member.behind ++ tailText trail rest))))).drop (lead.length + 1) =
        member.before ++ (member.head ++ (member.value ++ (member.behind ++
          tailText trail rest))) := by rw [drop_past]; rfl
    have hfirst : (lead ++ 123 :: (member.before ++ (member.head ++ (member.value ++
        (member.behind ++ tailText trail rest))))).drop (lead.length + 1 + member.before.length) =
        member.head ++ (member.value ++ (member.behind ++ tailText trail rest)) := by
      rw [Nat.add_assoc, drop_past, Nat.add_comm 1, drop_succ_cons, drop_left]
    have hquote : (member.head ++ (member.value ++ (member.behind ++
        tailText trail rest))).head? ≠ some 125 := by
      intro heq
      exact absurd (Option.some.inj heq) (by decide)
    have hfuel : rest.length < (lead ++ 123 :: (member.before ++ (member.head ++ (member.value ++
        (member.behind ++ tailText trail rest))))).length + 1 := by
      have hle := length_le_tailText trail rest
      simp only [length_append, length_cons]
      omega
    have hloop := memberLoop_all names (lead ++ 123 :: (member.before ++ (member.head ++
      (member.value ++ (member.behind ++ tailText trail rest))))) (lead ++ 123 :: member.before)
      hvalid hfuel (by rw [append_assoc, cons_append])
    have hlength : (lead ++ 123 :: member.before).length =
        lead.length + 1 + member.before.length := by
      rw [length_append, length_cons]
      omega
    rw [hlength] at hloop
    simp only [scanTopLevelObject, hskip, drop_left, head?_cons, ne_eq, not_true_eq_false,
      if_false, hopen, hinside, hfirst, if_neg hquote]
    exact hloop

def nameOf (member : Member) : String := (names.read (quoted member.key)).getD ""

def omitted (state : ResponsesState) (name : String) : Bool :=
  state.historyRehydrated && (name = "previous_response_id" || name = "conversation")

/-- The value that a member of this name has in the new body. -/
def newValue (state : ResponsesState) (input : Bytes) (name : String) (old : Bytes) : Bytes :=
  if name = "input" then input
  else if name = "stream" then (state.requestBody "stream").getD old
  else if (name = "tools" ∨ name = "tool_choice") ∧ state.requiresRebuild = true then
    (state.requestBody name).getD old
  else old

def rewritten (state : ResponsesState) (input : Bytes) (member : Member) : Member :=
  { member with
    before := []
    value := newValue state input (nameOf names member) member.value
    behind := [] }

def nameBytes (name : String) : Bytes := name.toList.map fun c => UInt8.ofNat c.toNat

def plainMember (name : String) (value : Bytes) : Member := ⟨[], nameBytes name, [], [], value, []⟩

/-- A member that the new body gets unless the old one had it. -/
def required (members : List Member) (name : String) (value : Option Bytes) : List Member :=
  if members.any (fun member => decide (nameOf names member = name)) then []
  else value.toList.map (plainMember name)

def splicedMembers (state : ResponsesState) (input : Bytes) (members : List Member) : List Member :=
  (members.filter fun member => !omitted state (nameOf names member)).map
      (rewritten names state input) ++
    required names members "input" (some input) ++
    required names members "tools"
      (if state.requiresRebuild then state.requestBody "tools" else none) ++
    required names members "tool_choice"
      (if state.requiresRebuild then state.requestBody "tool_choice" else none)

variable {names}

theorem name_of_located {body : Bytes} {member : Member} {found : TopLevelMember}
    (h : Located names body member found) : found.name = .ofName (nameOf names member) := by
  obtain ⟨name, hname, hfield⟩ := h.name
  rw [nameOf, hname, hfield]
  rfl

theorem skipped_ofName (state : ResponsesState) (name : String) :
    skipped state (.ofName name) = omitted state name := by
  unfold skipped omitted TopLevelField.ofName
  split_ifs <;> simp_all

theorem replacement_ofName (state : ResponsesState) (input old : Bytes) (name : String) :
    (replacement state input (.ofName name)).getD old = newValue state input name old := by
  unfold replacement newValue TopLevelField.ofName
  split_ifs <;> simp_all [selectedStateField] <;> split <;> simp_all

theorem spliceMembers_eq {body : Bytes} {members : List Member} {founds : List TopLevelMember}
    (h : List.Forall₂ (Located names body) members founds) (state : ResponsesState)
    (input : Bytes) :
    spliceMembers body state input founds =
      .ok (((members.filter fun member => !omitted state (nameOf names member)).map
        (rewritten names state input)).map Member.text) := by
  induction h with
  | nil => rfl
  | cons hlocated _ ih =>
    rename_i member found members founds _
    rw [spliceMembers, name_of_located hlocated, skipped_ofName, filter_cons]
    rcases omitted state (nameOf names member) with _ | _
    · rw [if_neg Bool.false_ne_true, Bool.not_false, if_pos rfl, hlocated.head, ih]
      have htext : (rewritten names state input member).text = member.head ++
          (replacement state input (.ofName (nameOf names member))).getD member.value := by
        rw [replacement_ofName]
        simp [Member.text, rewritten, Member.head]
      rw [map_cons, map_cons, htext]
      rcases replacement state input (.ofName (nameOf names member)) with _ | text
      · dsimp only
        rw [hlocated.value]
        rfl
      · rfl
    · rw [if_pos rfl, Bool.not_true, if_neg Bool.false_ne_true, ih]

theorem any_name {body : Bytes} {members : List Member} {founds : List TopLevelMember}
    (h : List.Forall₂ (Located names body) members founds) {field : TopLevelField} {name : String}
    (hfield : ∀ other, TopLevelField.ofName other = field ↔ other = name) :
    founds.any (fun found => decide (found.name = field)) =
      members.any fun member => decide (nameOf names member = name) := by
  induction h with
  | nil => rfl
  | cons hlocated _ ih =>
    rw [any_cons, any_cons, name_of_located hlocated, ih]
    simp only [hfield]

theorem ofName_eq_input (name : String) : TopLevelField.ofName name = .input ↔ name = "input" := by
  unfold TopLevelField.ofName
  split_ifs <;> simp_all

theorem ofName_eq_tools (name : String) : TopLevelField.ofName name = .tools ↔ name = "tools" := by
  unfold TopLevelField.ofName
  split_ifs <;> simp_all

theorem ofName_eq_toolChoice (name : String) :
    TopLevelField.ofName name = .toolChoice ↔ name = "tool_choice" := by
  unfold TopLevelField.ofName
  split_ifs <;> simp_all

theorem tailText_eq {members : List Member} :
    tailText [] members =
      (members.map fun member => 44 :: member.text).flatten ++ [125] := by
  induction members with
  | nil => rfl
  | cons member members ih => rw [tailText, ih]; simp

theorem intercalate_texts (member : Member) (rest : List Member) :
    [44].intercalate ((member :: rest).map Member.text) =
      member.text ++ (rest.map fun member => 44 :: member.text).flatten := by
  induction rest generalizing member with
  | nil => simp [List.intercalate]
  | cons next rest ih =>
    have hnext := ih next
    rw [map_cons] at hnext
    rw [map_cons, map_cons, List.intercalate, intersperse_cons_cons,
      flatten_cons, flatten_cons, map_cons, flatten_cons]
    rw [List.intercalate] at hnext
    rw [hnext]
    rfl

theorem objectText_spliced {members : List Member} (hne : members ≠ [])
    (hvalid : ∀ member ∈ members, member.Valid) :
    ObjectText members (123 :: [44].intercalate (members.map Member.text) ++ [125]) := by
  rcases members with _ | ⟨member, rest⟩
  · exact absurd rfl hne
  · have hspace : Space [] := fun b hb => absurd hb not_mem_nil
    have htext := ObjectText.members hspace hspace hvalid
    rw [nil_append, tailText_eq, ← append_assoc, ← intercalate_texts] at htext
    exact htext

theorem stringBody_of_plain {body : Bytes} (h : ∀ b ∈ body, 32 ≤ b.toNat ∧ b ≠ 34 ∧ b ≠ 92) :
    StringBody body := by
  induction body with
  | nil => exact .nil
  | cons b body ih =>
    obtain ⟨hb, hquote, hslash⟩ := h b mem_cons_self
    exact .plain hb hquote hslash (ih fun c hc => h c (mem_cons_of_mem _ hc))

theorem newValue_valid {state : ResponsesState} {input old : Bytes} (hinput : Text .value input)
    (hold : Text .value old) (name : String) : Text .value (newValue state input name old) := by
  have hfield : ∀ key, Text .value ((state.requestBody key).getD old) := by
    intro key
    cases hkey : state.requestBody key with
    | none => exact hold
    | some text => exact state.valid key text hkey
  unfold newValue
  split_ifs
  · exact hinput
  · exact hfield _
  · exact hfield _
  · exact hold

theorem required_valid {members : List Member} {name : String} {value : Option Bytes}
    (hkey : StringBody (nameBytes name))
    (hvalue : ∀ text, value = some text → Text .value text) :
    ∀ member ∈ required names members name value, member.Valid := by
  intro member hmember
  unfold required at hmember
  split_ifs at hmember
  · cases hmember
  · obtain ⟨text, htext, rfl⟩ := mem_map.mp hmember
    have hspace : Space [] := fun b hb => absurd hb not_mem_nil
    exact ⟨hspace, hkey, hspace, hspace, hvalue text (Option.mem_toList.mp htext), hspace⟩

theorem splicedMembers_valid {state : ResponsesState} {input : Bytes} {members : List Member}
    (hmembers : ∀ member ∈ members, member.Valid) (hinput : Text .value input) :
    ∀ member ∈ splicedMembers names state input members, member.Valid := by
  have hselected : ∀ key text, (if state.requiresRebuild then state.requestBody key else none) =
      some text → Text .value text := by
    intro key text hsome
    split_ifs at hsome
    exact state.valid key text hsome
  intro member hmember
  rw [splicedMembers, mem_append, mem_append, mem_append] at hmember
  rcases hmember with ((hmember | hmember) | hmember) | hmember
  · obtain ⟨source, hsource, rfl⟩ := mem_map.mp hmember
    have hvalid := hmembers source (mem_of_mem_filter hsource)
    have hspace : Space [] := fun b hb => absurd hb not_mem_nil
    exact ⟨hspace, hvalid.key, hvalid.after, hvalid.between, newValue_valid hinput hvalid.value _,
      hspace⟩
  · exact required_valid (stringBody_of_plain (by decide +kernel)) (by
      intro text htext
      rw [← Option.some.inj htext]
      exact hinput) member hmember
  · exact required_valid (stringBody_of_plain (by decide +kernel)) (hselected _) member hmember
  · exact required_valid (stringBody_of_plain (by decide +kernel)) (hselected _) member hmember

theorem splicedMembers_ne_nil (state : ResponsesState) (input : Bytes) (members : List Member) :
    splicedMembers names state input members ≠ [] := by
  intro hnil
  simp only [splicedMembers, append_eq_nil_iff, map_eq_nil_iff] at hnil
  obtain ⟨⟨⟨hkept, hrequired⟩, -⟩, -⟩ := hnil
  unfold required at hrequired
  split_ifs at hrequired with hany
  · obtain ⟨member, hmember, hfield⟩ := any_eq_true.mp hany
    have hnot := filter_eq_nil_iff.mp hkept member hmember
    rw [of_decide_eq_true hfield] at hnot
    exact hnot (by simp [omitted])
  · cases hrequired

theorem required_text {members : List Member} {name : String} {value : Option Bytes} :
    (required names members name value).map Member.text =
      if members.any (fun member => decide (nameOf names member = name)) then []
      else value.toList.map fun text => quoted (nameBytes name) ++ [58] ++ text := by
  unfold required
  split_ifs
  · rfl
  · rw [map_map]
    congr 1
    funext text
    simp [plainMember, Member.text, Member.head]

theorem appended_eq {body : Bytes} {members : List Member} {founds : List TopLevelMember}
    (h : List.Forall₂ (Located names body) members founds) (state : ResponsesState)
    {field : TopLevelField} {name : String}
    (hfield : ∀ other, TopLevelField.ofName other = field ↔ other = name) :
    appended state founds field (quoted (nameBytes name) ++ [58]) =
      (required names members name (selectedStateField state field)).map Member.text := by
  rw [required_text, appended, any_name h hfield]
  rcases selectedStateField state field with _ | text
  · split_ifs <;> rfl
  · rfl

theorem texts_eq {body : Bytes} {members : List Member} {founds : List TopLevelMember}
    (h : List.Forall₂ (Located names body) members founds) (state : ResponsesState)
    (input : Bytes) :
    ((members.filter fun member => !omitted state (nameOf names member)).map
        (rewritten names state input)).map Member.text ++
      (if founds.any (fun found => decide (found.name = .input)) then []
        else [inputKey ++ input]) ++
      appended state founds .tools toolsKey ++ appended state founds .toolChoice toolChoiceKey =
    (splicedMembers names state input members).map Member.text := by
  have hkeys : inputKey = quoted (nameBytes "input") ++ [58] ∧
      toolsKey = quoted (nameBytes "tools") ++ [58] ∧
      toolChoiceKey = quoted (nameBytes "tool_choice") ++ [58] := by decide +kernel
  rw [hkeys.1, hkeys.2.1, hkeys.2.2, appended_eq h state ofName_eq_tools,
    appended_eq h state ofName_eq_toolChoice, any_name h ofName_eq_input, splicedMembers,
    map_append, map_append, map_append]
  congr 3
  rw [required_text]
  rfl

theorem valid_of_objectText {members : List Member} {body : Bytes} (h : ObjectText members body) :
    ∀ member ∈ members, member.Valid := by
  cases h with
  | empty => exact fun member hmember => absurd hmember not_mem_nil
  | members _ _ hvalid => exact hvalid

/-- An object text is scanned exactly when none of its names has half of a surrogate pair, its
members are then found where they stand, and a body that is spliced from it is the text of the
spliced members. -/
theorem splice_keeps_members (names : NameReader) (maxRewrittenBodyBytes : ℕ)
    (state : ResponsesState) (reconcile : List TopLevelMember → Except String Bytes)
    {members : List Member} {body : Bytes} (h : ObjectText members body)
    (hreconcile : ∀ founds input, reconcile founds = .ok input → Text .value input) :
    ((∀ member ∈ members, Utf8 member.key) →
      ((∃ founds, scanTopLevelObject names body = .ok founds) ↔
        ∀ member ∈ members, paired member.key = true)) ∧
    (∀ founds, scanTopLevelObject names body = .ok founds →
      List.Forall₂ (Located names body) members founds) ∧
    ∀ new, serializeSelectedBody names maxRewrittenBodyBytes body state reconcile = .ok (.ok new) →
      ∃ founds input, scanTopLevelObject names body = .ok founds ∧ reconcile founds = .ok input ∧
        ObjectText (splicedMembers names state input members) new := by
  obtain ⟨hread, hunread⟩ := scan_objectText names h
  have hiff : (∃ founds, scanTopLevelObject names body = .ok founds) ↔
      ∀ member ∈ members, (names.read (quoted member.key)).isSome = true := by
    constructor
    · rintro ⟨founds, hfounds⟩
      by_contra hnot
      rw [hunread hnot] at hfounds
      cases hfounds
    · intro hall
      obtain ⟨founds, hfounds, -⟩ := hread hall
      exact ⟨founds, hfounds⟩
  have hlocated : ∀ founds, scanTopLevelObject names body = .ok founds →
      List.Forall₂ (Located names body) members founds := by
    intro founds hfounds
    obtain ⟨others, hothers, hlocated⟩ := hread (hiff.mp ⟨founds, hfounds⟩)
    rw [hfounds] at hothers
    rw [Except.ok.inj hothers]
    exact hlocated
  refine ⟨fun hutf8 => ?_, hlocated, fun new hnew => ?_⟩
  · rw [hiff]
    exact forall₂_congr fun member hmember => names.reads_iff member.key
      (valid_of_objectText h member hmember).key (hutf8 member hmember)
  rw [serializeSelectedBody] at hnew
  obtain ⟨founds, hfounds, hnew⟩ := FallibleSteps.bind_ok hnew
  obtain ⟨input, hinput, hnew⟩ := FallibleSteps.bind_ok hnew
  obtain ⟨texts, htexts, hnew⟩ := FallibleSteps.bind_ok hnew
  have hscan : scanTopLevelObject names body = .ok founds := by
    unfold selectedMembers at hfounds
    rcases hscan : scanTopLevelObject names body with error | others
    · rw [hscan] at hfounds
      cases hfounds
    · rw [hscan] at hfounds
      exact hfounds
  have hforall := hlocated founds hscan
  refine ⟨founds, input, hscan, hinput, ?_⟩
  rw [spliceMembers_eq hforall] at htexts
  rw [← Except.ok.inj htexts, texts_eq hforall] at hnew
  have hresult := Except.ok.inj hnew
  split at hresult
  · cases hresult
  · rw [← Except.ok.inj hresult]
    exact objectText_spliced (splicedMembers_ne_nil state input members)
      (splicedMembers_valid (valid_of_objectText h) (hreconcile founds input hinput))

/-- Reads names without escapes as they stand. -/
def plainNames : NameReader where
  read text := if paired (text.tail.dropLast) then
      some (String.ofList (text.tail.dropLast.map fun b => Char.ofNat b.toNat)) else none
  reads_iff body _ _ := by
    have hbody : (quoted body).tail.dropLast = body := by simp [quoted]
    rw [hbody]
    split_ifs with h <;> simp [h]

def plainMembers (fields : List (String × String)) : List Member :=
  fields.map fun field => plainMember field.1 (nameBytes field.2)

def objectBytes (members : List Member) : Bytes :=
  123 :: [44].intercalate (members.map Member.text) ++ [125]

theorem objectText_plain {fields : List (String × String)} (hne : fields ≠ [])
    (hkeys : ∀ field ∈ fields, StringBody (nameBytes field.1))
    (hvalues : ∀ field ∈ fields, nameBytes field.2 ∈ literals) :
    ObjectText (plainMembers fields) (objectBytes (plainMembers fields)) := by
  refine objectText_spliced (mt map_eq_nil_iff.mp hne) fun member hmember => ?_
  obtain ⟨field, hfield, rfl⟩ := mem_map.mp hmember
  have hspace : Space [] := fun b hb => absurd hb not_mem_nil
  exact ⟨hspace, hkeys field hfield, hspace, hspace, .scalar (.inl (hvalues field hfield)), hspace⟩

/-- A rehydrated state that owns the tools, the tool choice and the stream flag. -/
def rebuiltState : ResponsesState where
  historyRehydrated := true
  requiresRebuild := true
  requestBody key :=
    if ["tools", "tool_choice", "stream"].contains key then some (nameBytes "false") else none
  valid key text h := by
    split_ifs at h
    rw [← Option.some.inj h]
    exact .scalar (.inl (by decide +kernel))

/-- The selector is dropped, tools and stream are replaced wherever they stand, and what is missing
is put at the end. -/
theorem rebuilt_members_spliced :
    let fields := [("conversation", "null"), ("tools", "true"), ("a", "true"), ("stream", "true"),
      ("tools", "null")]
    let expected := [("tools", "false"), ("a", "true"), ("stream", "false"), ("tools", "false"),
      ("input", "[]"), ("tool_choice", "false")]
    serializeSelectedBody plainNames 1000 (objectBytes (plainMembers fields)) rebuiltState
        (fun _ => .ok (nameBytes "[]")) = .ok (.ok (objectBytes (plainMembers expected))) ∧
      ObjectText (plainMembers expected) (objectBytes (plainMembers expected)) := by
  intro fields expected
  have htext : ObjectText (plainMembers fields) (objectBytes (plainMembers fields)) := by
    refine objectText_plain (by decide) (fun field hfield => stringBody_of_plain ?_)
      (by decide +kernel)
    revert field
    decide +kernel
  have hbody : serializeSelectedBody plainNames 1000 (objectBytes (plainMembers fields))
      rebuiltState (fun _ => .ok (nameBytes "[]")) =
        .ok (.ok (objectBytes (plainMembers expected))) := by decide +kernel
  obtain ⟨-, -, hspliced⟩ := splice_keeps_members plainNames 1000 rebuiltState
    (fun _ => .ok (nameBytes "[]")) htext fun founds input hinput => by
      rw [← Except.ok.inj hinput]
      exact .emptyArray fun b hb => absurd hb not_mem_nil
  obtain ⟨founds, input, -, hinput, hnew⟩ := hspliced _ hbody
  have hmembers : splicedMembers plainNames rebuiltState (nameBytes "[]") (plainMembers fields) =
      plainMembers expected := by decide +kernel
  rw [← Except.ok.inj hinput, hmembers] at hnew
  exact ⟨hbody, hnew⟩

/-- A name with half of a surrogate pair is good JSON, but its object is not scanned. -/
theorem unpaired_name_refused :
    ObjectText (plainMembers [("\\ud800", "true")])
        (objectBytes (plainMembers [("\\ud800", "true")])) ∧
      ∀ names : NameReader, scanTopLevelObject names
        (objectBytes (plainMembers [("\\ud800", "true")])) = .error "invalid JSON field name" := by
  have hkey : nameBytes "\\ud800" = [92, 117, 100, 56, 48, 48] := by decide +kernel
  have hbody : StringBody (nameBytes "\\ud800") := by
    rw [hkey]
    exact .unicode (by decide +kernel) .nil
  have htext : ObjectText (plainMembers [("\\ud800", "true")])
      (objectBytes (plainMembers [("\\ud800", "true")])) := by
    refine objectText_plain (by simp) (fun field hfield => ?_) (by decide +kernel)
    rw [mem_singleton.mp hfield]
    exact hbody
  refine ⟨htext, fun names => (scan_objectText names htext).2 fun hall => ?_⟩
  have hpaired := (names.reads_iff _ hbody ⟨"\\ud800".toList, by decide +kernel⟩).mp
    (hall _ mem_cons_self)
  rw [hkey] at hpaired
  cases hpaired

end Results

end BodySplicing
