import PraxisAi.Base64Text
import PraxisAi.EventStreamFrames
import PraxisAi.FallibleSteps
import PraxisAi.ForwardedAddresses
import PraxisAi.SaturatingArithmetic
import Mathlib.Data.List.Sort
import Mathlib.Data.String.Basic

/-! # Budget keys of the token rate limit

The configured dimensions of a key are compiled once, sorted, and resolved for each request into
one opaque key: every value is hashed under its kind, and what is too long together is hashed
again. -/
namespace RateLimitKeys

open EventStreamFrames SaturatingArithmetic
open ForwardedAddresses hiding KeyInputs Bytes

def utf8 (text : String) : List UInt8 := text.toUTF8.data.toList

theorem utf8_injective {s t : String} (h : utf8 s = utf8 t) : s = t := by
  unfold utf8 at h
  exact String.toByteArray_inj.mp (ByteArray.ext (Array.toList_inj.mp h))

section Configuration

inductive MissingKeyPolicy where
  | reject
  | fallback
  deriving DecidableEq

inductive KeyDimension where
  | global
  | authenticatedSubject
  | ip (header : Option String) (trustedHops : UInt32) (ipv6Prefix : Option UInt8)
  | model (header : Option String)
  | header (name : String) (missing : Option MissingKeyPolicy)
  deriving DecidableEq

structure KeySpec where
  dimensions : List KeyDimension
  missing : MissingKeyPolicy

def isHeaderChar (c : Char) : Bool :=
  c.isDigit || c.isLower || "!#$%&'*+-.^_`|~".toList.contains c

def maxHeaderNameLen : ℕ := 65535

/-- Header names are short tokens in lower case. -/
def IsHeaderName (text : String) : Prop :=
  text ≠ "" ∧ text.utf8ByteSize ≤ maxHeaderNameLen ∧ text.toList.all isHeaderChar = true

instance (text : String) : Decidable (IsHeaderName text) :=
  inferInstanceAs (Decidable (_ ∧ _ ∧ _))

abbrev HeaderName := { text : String // IsHeaderName text }

def tryFrom (text : String) : Option HeaderName :=
  let name := text.map Char.toLower
  if h : IsHeaderName name then some ⟨name, h⟩ else none

inductive CompiledDimension where
  | global
  | authenticatedSubject
  | ip (header : Option HeaderName) (trustedHops : UInt32) (ipv6Prefix : Option UInt8)
  | model (header : HeaderName)
  | header (name : HeaderName) (missing : MissingKeyPolicy)
  deriving DecidableEq

structure CompiledKeySpec where
  dimensions : List CompiledDimension
  missing : MissingKeyPolicy
  deriving DecidableEq

def parseHeaderName (name dimension : String) : Except String HeaderName :=
  match tryFrom (trimText name) with
  | some header => .ok header
  | none => .error ("token_rate_limit: invalid " ++ dimension ++ " header name '" ++ name ++
      "': invalid HTTP header name")

def compileIpDimension (header : Option String) (trustedHops : UInt32)
    (ipv6Prefix : Option UInt8) : Except String CompiledDimension :=
  if ipv6Prefix.any fun length => length < 1 || 128 < length then
    .error "token_rate_limit: ip.ipv6_prefix must be between 1 and 128"
  else
    match header with
    | some name =>
      (parseHeaderName name "ip").map fun name => .ip (some name) trustedHops ipv6Prefix
    | none => .ok (.ip none trustedHops ipv6Prefix)

def defaultModelHeader : HeaderName := ⟨"x-model", by decide +kernel⟩

def compileDimension (specMissing : MissingKeyPolicy) :
    KeyDimension → Except String CompiledDimension
  | .global => .ok .global
  | .authenticatedSubject => .ok .authenticatedSubject
  | .ip header trustedHops ipv6Prefix => compileIpDimension header trustedHops ipv6Prefix
  | .model (some name) => (parseHeaderName name "model").map .model
  | .model none => .ok (.model defaultModelHeader)
  | .header name missing =>
    if trimText name = "" then .error "token_rate_limit: key header name must not be empty"
    else (parseHeaderName name "header").map fun name => .header name (missing.getD specMissing)

structure Seen where
  named : List String
  headers : List String

def insertUnique (seen : List String) (name : String) : Except String (List String) :=
  if name ∈ seen then .error ("token_rate_limit: duplicate key dimension '" ++ name ++ "'")
  else .ok (name :: seen)

def recordNamed (seen : Seen) (name : String) : Except String Seen :=
  (insertUnique seen.named name).map fun named => { seen with named }

def recordDimension (seen : Seen) : CompiledDimension → Except String Seen
  | .global => recordNamed seen "global"
  | .authenticatedSubject => recordNamed seen "authenticated_subject"
  | .ip _ _ _ => recordNamed seen "ip"
  | .model _ => recordNamed seen "model"
  | .header name _ =>
    if name.1 ∈ seen.headers then
      .error ("token_rate_limit: duplicate key header dimension '" ++ name.1 ++ "'")
    else .ok { seen with headers := name.1 :: seen.headers }

def compileAll (missing : MissingKeyPolicy) :
    Seen → List KeyDimension → Except String (List CompiledDimension)
  | _, [] => .ok []
  | seen, dimension :: rest => do
    let compiled ← compileDimension missing dimension
    let seen ← recordDimension seen compiled
    let later ← compileAll missing seen rest
    .ok (compiled :: later)

def dimensionOrd : CompiledDimension → ℕ × String
  | .global => (0, "")
  | .authenticatedSubject => (1, "")
  | .ip _ _ _ => (2, "")
  | .model _ => (3, "")
  | .header name _ => (4, name.1)

def ordLe (left right : CompiledDimension) : Bool :=
  decide ((dimensionOrd left).1 < (dimensionOrd right).1 ∨
    (dimensionOrd left).1 = (dimensionOrd right).1 ∧
      (dimensionOrd left).2 ≤ (dimensionOrd right).2)

def compileKeySpec (spec : KeySpec) : Except String CompiledKeySpec :=
  if spec.dimensions = [] then .error "token_rate_limit: key.dimensions must not be empty"
  else if .global ∈ spec.dimensions ∧ 1 < spec.dimensions.length then
    .error "token_rate_limit: key dimension 'global' cannot be combined with other dimensions"
  else do
    let dimensions ← compileAll spec.missing ⟨[], []⟩ spec.dimensions
    .ok ⟨dimensions.mergeSort ordLe, spec.missing⟩

end Configuration

section Resolution

abbrev Bytes := List UInt8

structure BodyProbe where
  model : Option String

structure KeyInputs extends ForwardedAddresses.KeyInputs where
  subject : Option String
  bodyProbe : Option BodyProbe

inductive KeyDecision where
  | admitted (key : String)
  | reject (status : ℕ) (reason : String)
  deriving DecidableEq

inductive DimensionValue where
  | part (text : String)
  | skip
  | reject (status : ℕ) (reason : String)

def fallbackKey : String := "__fallback__"

def maxKeyLength : ℕ := 256

def isAsciiWhitespace (byte : UInt8) : Bool :=
  byte = 32 || byte = 9 || byte = 10 || byte = 12 || byte = 13

def trimAscii (bytes : Bytes) : Bytes :=
  (bytes.dropWhile isAsciiWhitespace).rdropWhile isAsciiWhitespace

def nonempty (value : Option IpAddresses.Text) : Option IpAddresses.Text :=
  (value.map trim).filter fun text => !text.isEmpty

def headerValue (headers : List (String × Bytes)) (name : HeaderName) :
    Option IpAddresses.Text :=
  nonempty ((getAll headers name.1).head?.bind toStr)

def headerBytes (headers : List (String × Bytes)) (name : HeaderName) : Option Bytes :=
  ((getAll headers name.1).head?.map trimAscii).filter fun value => !value.isEmpty

def resolveModel (header : HeaderName) (inputs : KeyInputs) : Option String :=
  ((headerValue inputs.headers header).or
    (nonempty ((inputs.bodyProbe.bind BodyProbe.model).map String.toList))).map String.ofList

variable (hash : Bytes → Bytes)

def opaqueText (kind : String) (digest : Bytes) : String :=
  kind ++ (":v1:" ++ String.ofList (Base64Text.encode digest))

def opaquePart (kind : String) (value : Bytes) : String := opaqueText kind (hash value)

def opaqueHeaderPart (name : String) (value : Bytes) : String :=
  opaqueText "hdr" (hash (utf8 name ++ 0 :: value))

def missingValue (policy : MissingKeyPolicy) (status : ℕ) (reason : String) : DimensionValue :=
  match policy with
  | .reject => .reject status reason
  | .fallback => .skip

def valueOr {α : Type} (value : Option α) (part : α → String) (policy : MissingKeyPolicy)
    (status : ℕ) (reason : String) : DimensionValue :=
  match value with
  | some value => .part (part value)
  | none => missingValue policy status reason

def resolveDimension (specMissing : MissingKeyPolicy) (inputs : KeyInputs) :
    CompiledDimension → DimensionValue
  | .global => .part fallbackKey
  | .authenticatedSubject =>
    valueOr (inputs.subject.filter (· ≠ ""))
      (fun subject => opaquePart hash "subject" (utf8 subject)) specMissing 401
      "missing_authenticated_subject"
  | .ip header trustedHops ipv6Prefix =>
    valueOr (resolveIp (header.map Subtype.val) trustedHops ipv6Prefix inputs.toKeyInputs)
      (fun canonical => opaquePart hash "ip" (utf8 canonical)) specMissing 400 "missing_ip"
  | .model header =>
    valueOr (resolveModel header inputs) (fun model => opaquePart hash "model" (utf8 model))
      specMissing 400 "missing_model"
  | .header name missing =>
    valueOr (headerBytes inputs.headers name) (opaqueHeaderPart hash name.1) missing 400
      "missing_header"

def joinParts : List String → String
  | [] => fallbackKey
  | [part] => part
  | parts =>
    let joined := "|".intercalate parts
    if joined.utf8ByteSize ≤ maxKeyLength then joined else opaquePart hash "comp" (utf8 joined)

def resolveParts (missing : MissingKeyPolicy) (inputs : KeyInputs) :
    List String → List CompiledDimension → KeyDecision
  | parts, [] => .admitted (joinParts hash parts)
  | parts, dimension :: rest =>
    match resolveDimension hash missing inputs dimension with
    | .part part => resolveParts missing inputs (parts ++ [part]) rest
    | .skip => resolveParts missing inputs parts rest
    | .reject status reason => .reject status reason

def resolve (spec : CompiledKeySpec) (inputs : KeyInputs) : KeyDecision :=
  if spec.dimensions = [.global] then .admitted fallbackKey
  else resolveParts hash spec.missing inputs [] spec.dimensions

end Resolution

section Fingerprint

def missingPolicyTag : MissingKeyPolicy → UInt8
  | .reject => 0
  | .fallback => 1

def digestUsize (n : ℕ) : Bytes := beBytes 8 (min n u64Max)

def digestString (value : String) : Bytes := digestUsize value.utf8ByteSize ++ utf8 value

def digestOptionalString : Option String → Bytes
  | some value => 1 :: digestString value
  | none => [0]

def digestDimension : CompiledDimension → Bytes
  | .global => utf8 "global"
  | .authenticatedSubject => utf8 "authenticated_subject"
  | .ip header trustedHops ipv6Prefix =>
    utf8 "ip" ++ (digestOptionalString (header.map Subtype.val) ++
      (beBytes 4 trustedHops.toNat ++
        match ipv6Prefix with
        | some length => [1, length]
        | none => [0]))
  | .model header => utf8 "model" ++ digestString header.1
  | .header name missing => utf8 "header" ++ (digestString name.1 ++ [missingPolicyTag missing])

/-- What the fingerprint of a key policy is the hash of. -/
def keyConfig (spec : CompiledKeySpec) : Bytes :=
  utf8 "praxis:token_rate_limit:key_config" ++ (0 :: missingPolicyTag spec.missing ::
    (digestUsize spec.dimensions.length ++ spec.dimensions.flatMap digestDimension))

def configFingerprint (hash : Bytes → Bytes) (spec : CompiledKeySpec) : String :=
  String.join ((hash (keyConfig spec)).map fun byte => DecimalText.hexText 2 byte.toNat)

end Fingerprint

end RateLimitKeys
