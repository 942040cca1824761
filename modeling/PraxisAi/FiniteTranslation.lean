import PraxisAi.DecimalText
import PraxisAi.JsonValues
import PraxisAi.SseFrames

/-! # Values and errors of the translation

What the converters between Chat Completions and Responses share: how they read a value, how they
handle reasoning and its limit, and what they fail with. -/
namespace FiniteTranslation

open JsonValues SseFrames
open DecimalText (decimal foldl_decimal isDigit_of_mem_decimal decimal_ne_nil)

section Values

def digitsValue (digits : List Char) : ℕ :=
  digits.foldl (fun n digit => n * 10 + (digit.toNat - 48)) 0

/-- An unsigned 64 bit integer is written in plain digits. -/
def asU64 : Json → Option ℕ
  | .num text =>
    if !text.isEmpty ∧ text.toList.all Char.isDigit ∧ digitsValue text.toList < 2 ^ 64 then
      some (digitsValue text.toList)
    else none
  | _ => none

theorem asU64_ofNat {n : ℕ} (h : n < 2 ^ 64) : asU64 (.ofNat n) = some n := by
  have htext : n.repr.toList = decimal n := by simp [decimal]
  have hvalue : digitsValue n.repr.toList = n := by
    rw [htext]
    exact foldl_decimal n
  have hdigits : n.repr.toList.all Char.isDigit = true := by
    rw [htext, List.all_eq_true]
    intro ch hch
    exact isDigit_of_mem_decimal hch
  have hempty : n.repr.isEmpty = false := by
    apply Bool.eq_false_iff.mpr
    intro hnil
    apply decimal_ne_nil n
    rw [← htext, String.isEmpty_iff.mp hnil]
    rfl
  simp only [Json.ofNat, asU64, hvalue, hdigits, hempty, h, Bool.not_false, and_self, if_true]

def asBool : Json → Option Bool
  | .bool value => some value
  | _ => none

def isString (j : Json) : Bool := j.asStr.isSome

def isObject (j : Json) : Bool := j.asObj.isSome

def jsonTypeName : Json → String
  | .null => "null"
  | .bool _ => "boolean"
  | .num _ => "number"
  | .str _ => "string"
  | .arr _ => "array"
  | .obj _ => "object"

def orNull (value : Option Json) : Json := value.getD .null

def insertAbsent (key : String) (value : Json) (fields : List (String × Json)) :
    List (String × Json) :=
  if (fields.lookup key).isSome then fields else fields ++ [(key, value)]

end Values

section Reasoning

abbrev Usize := UInt64

inductive ReasoningDialect where
  | none
  | vllm
  deriving DecidableEq

def ReasoningDialect.isEnabled : ReasoningDialect → Bool
  | .none => false
  | .vllm => true

structure ReasoningOptions where
  dialect : ReasoningDialect
  maxReasoningBytes : Usize
  deriving DecidableEq

inductive TranslationError where
  | invalidWebSearchCall (reason : String)
  | untranslatable (reason : String)
  deriving DecidableEq

def enforceReasoningLimit (bytes : ℕ) (maxReasoningBytes : Usize) : Except TranslationError Unit :=
  if bytes > maxReasoningBytes.toNat then
    .error (.untranslatable (s!"raw reasoning content ({bytes} bytes) exceeds the configured " ++
      s!"maximum of {maxReasoningBytes} bytes"))
  else .ok ()

end Reasoning

end FiniteTranslation
