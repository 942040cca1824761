import PraxisAi.KeyedSorting
import PraxisAi.PrefixCodes
import PraxisAi.RateLimitKeys
import PraxisAi.Utf8Text
import Mathlib.Data.Prod.Lex

/-! # Budget keys separate clients

The order in which the dimensions of a key are written changes nothing, and two admitted requests
share a key exactly when every dimension has the same value for both. -/
namespace KeySeparation

open List Option
open RateLimitKeys
open ForwardedAddresses (resolveIp)

section Compilation

variable {missing : MissingKeyPolicy} {seen : Seen} {c c' : CompiledDimension}

def compiledOf (missing : MissingKeyPolicy) (dimension : KeyDimension) :
    Option CompiledDimension :=
  (compileDimension missing dimension).toOption

def Fresh (seen : Seen) : CompiledDimension → Prop
  | .global => "global" ∉ seen.named
  | .authenticatedSubject => "authenticated_subject" ∉ seen.named
  | .ip _ _ _ => "ip" ∉ seen.named
  | .model _ => "model" ∉ seen.named
  | .header name _ => name.1 ∉ seen.headers

def add (seen : Seen) : CompiledDimension → Seen
  | .global => { seen with named := "global" :: seen.named }
  | .authenticatedSubject => { seen with named := "authenticated_subject" :: seen.named }
  | .ip _ _ _ => { seen with named := "ip" :: seen.named }
  | .model _ => { seen with named := "model" :: seen.named }
  | .header name _ => { seen with headers := name.1 :: seen.headers }

theorem recordNamed_fresh {name : String} (h : name ∉ seen.named) :
    recordNamed seen name = .ok { seen with named := name :: seen.named } := by
  rw [recordNamed, insertUnique, if_neg h]
  rfl

theorem recordNamed_seen {name : String} (h : name ∈ seen.named) (seen' : Seen) :
    recordNamed seen name ≠ .ok seen' := by
  rw [recordNamed, insertUnique, if_pos h]
  intro heq
  cases heq

theorem recordDimension_fresh (h : Fresh seen c) : recordDimension seen c = .ok (add seen c) := by
  cases c with
  | header name _ => exact if_neg h
  | _ => exact recordNamed_fresh h

theorem fresh_of_recorded {seen' : Seen} (h : recordDimension seen c = .ok seen') :
    Fresh seen c := by
  cases c with
  | header name _ =>
    intro hseen
    rw [recordDimension, if_pos hseen] at h
    cases h
  | _ => exact fun hseen => recordNamed_seen hseen _ h

theorem fresh_add :
    Fresh (add seen c) c' ↔ Fresh seen c' ∧ dimensionOrd c ≠ dimensionOrd c' := by
  cases c <;> cases c' <;> grind [Fresh, add, dimensionOrd]

def Compiles (missing : MissingKeyPolicy) (dimensions : List KeyDimension) : Prop :=
  (∀ dimension ∈ dimensions, (compiledOf missing dimension).isSome = true) ∧
    ((dimensions.filterMap (compiledOf missing)).map dimensionOrd).Nodup

theorem compileAll_of_compiles {dimensions : List KeyDimension} (h : Compiles missing dimensions)
    (hfresh : ∀ c ∈ dimensions.filterMap (compiledOf missing), Fresh seen c) :
    compileAll missing seen dimensions = .ok (dimensions.filterMap (compiledOf missing)) := by
  induction dimensions generalizing seen with
  | nil => rfl
  | cons dimension rest ih =>
    obtain ⟨hvalid, hnodup⟩ := h
    obtain ⟨c, hc⟩ := isSome_iff_exists.mp (hvalid dimension mem_cons_self)
    rw [filterMap_cons_some hc] at hnodup hfresh ⊢
    rw [map_cons, nodup_cons] at hnodup
    have hcompiled : compileDimension missing dimension = .ok c := by
      rw [compiledOf] at hc
      rcases hresult : compileDimension missing dimension with e | c₁
      · rw [hresult] at hc
        cases hc
      · rw [hresult] at hc
        cases hc
        rfl
    have hrest := @ih (add seen c)
      ⟨fun dimension' hmem => hvalid dimension' (mem_cons_of_mem _ hmem), hnodup.2⟩ (by
        intro c' hc'
        refine fresh_add.mpr ⟨hfresh c' (mem_cons_of_mem _ hc'), fun hord => ?_⟩
        exact hnodup.1 (mem_map.mpr ⟨c', hc', hord.symm⟩))
    rw [compileAll, hcompiled]
    dsimp only [bind, Except.bind]
    rw [recordDimension_fresh (hfresh c mem_cons_self)]
    dsimp only
    rw [hrest]

theorem compiles_of_compileAll {dimensions : List KeyDimension} {out : List CompiledDimension}
    (h : compileAll missing seen dimensions = .ok out) :
    Compiles missing dimensions ∧ out = dimensions.filterMap (compiledOf missing) ∧
      ∀ c ∈ out, Fresh seen c := by
  induction dimensions generalizing seen out with
  | nil =>
    cases h
    refine ⟨⟨fun _ hmem => ?_, nodup_nil⟩, rfl, fun _ hmem => ?_⟩
    · cases hmem
    · cases hmem
  | cons dimension rest ih =>
    rw [compileAll] at h
    obtain ⟨c, hcompiled, h⟩ := FallibleSteps.bind_ok h
    obtain ⟨seen', hrecord, h⟩ := FallibleSteps.bind_ok h
    obtain ⟨later, hlater, h⟩ := FallibleSteps.bind_ok h
    cases h
    have hfresh := fresh_of_recorded hrecord
    rw [recordDimension_fresh hfresh] at hrecord
    cases hrecord
    obtain ⟨⟨hvalid, hnodup⟩, hout, hrest⟩ := ih hlater
    have hc : compiledOf missing dimension = some c := by
      rw [compiledOf, hcompiled]
      rfl
    rw [hout] at hrest ⊢
    refine ⟨⟨?_, ?_⟩, (filterMap_cons_some hc).symm, ?_⟩
    · intro dimension' hmem
      rcases mem_cons.mp hmem with rfl | hmem
      · rw [hc]
        rfl
      · exact hvalid dimension' hmem
    · rw [filterMap_cons_some hc, map_cons, nodup_cons]
      refine ⟨fun hord => ?_, hnodup⟩
      obtain ⟨c', hc', hsame⟩ := mem_map.mp hord
      exact (fresh_add.mp (hrest c' hc')).2 hsame.symm
    · intro c' hc'
      rcases mem_cons.mp hc' with rfl | hc'
      · exact hfresh
      · exact (fresh_add.mp (hrest c' hc')).1

theorem compileKeySpec_ok_iff {spec : KeySpec} {compiled : CompiledKeySpec} :
    compileKeySpec spec = .ok compiled ↔
      spec.dimensions ≠ [] ∧ ¬(.global ∈ spec.dimensions ∧ 1 < spec.dimensions.length) ∧
        Compiles spec.missing spec.dimensions ∧
        compiled = ⟨(spec.dimensions.filterMap (compiledOf spec.missing)).mergeSort ordLe,
          spec.missing⟩ := by
  rw [compileKeySpec]
  by_cases hempty : spec.dimensions = []
  · rw [if_pos hempty]
    exact iff_of_false (fun h => by cases h) fun h => h.1 hempty
  by_cases hglobal : .global ∈ spec.dimensions ∧ 1 < spec.dimensions.length
  · rw [if_neg hempty, if_pos hglobal]
    exact iff_of_false (fun h => by cases h) fun h => h.2.1 hglobal
  rw [if_neg hempty, if_neg hglobal]
  constructor
  · intro h
    obtain ⟨dimensions, hall, h⟩ := FallibleSteps.bind_ok h
    cases h
    obtain ⟨hcompiles, rfl, -⟩ := compiles_of_compileAll hall
    exact ⟨hempty, hglobal, hcompiles, rfl⟩
  · rintro ⟨-, -, hcompiles, rfl⟩
    have hall := @compileAll_of_compiles spec.missing ⟨[], []⟩ spec.dimensions hcompiles (by
      intro c _
      cases c <;> exact not_mem_nil)
    rw [hall]
    rfl

theorem ordLe_iff (left right : CompiledDimension) : ordLe left right = true ↔
    toLex (dimensionOrd left) ≤ toLex (dimensionOrd right) := by
  rw [ordLe, decide_eq_true_iff, Prod.Lex.toLex_le_toLex]

theorem compileKeySpec_perm {spec spec' : KeySpec} {compiled : CompiledKeySpec}
    (hperm : spec'.dimensions.Perm spec.dimensions) (hmissing : spec'.missing = spec.missing)
    (h : compileKeySpec spec = .ok compiled) : compileKeySpec spec' = .ok compiled := by
  obtain ⟨hempty, hglobal, ⟨hvalid, hnodup⟩, rfl⟩ := compileKeySpec_ok_iff.mp h
  rw [← hmissing] at hvalid hnodup ⊢
  have hcompiled := hperm.filterMap (compiledOf spec'.missing)
  refine compileKeySpec_ok_iff.mpr ⟨?_, ?_, ⟨?_, ?_⟩, ?_⟩
  · intro hnil
    rw [hnil] at hperm
    exact hempty hperm.nil_eq.symm
  · rw [hperm.mem_iff, hperm.length_eq]
    exact hglobal
  · exact fun dimension hmem => hvalid dimension (hperm.subset hmem)
  · exact ((hcompiled.map dimensionOrd).nodup_iff).mpr hnodup
  · have hsources : ∀ a ∈ spec.dimensions.filterMap (compiledOf spec'.missing),
        ∀ b ∈ spec.dimensions.filterMap (compiledOf spec'.missing),
        toLex (dimensionOrd a) = toLex (dimensionOrd b) → a = b :=
      fun a ha b hb hord => inj_on_of_nodup_map hnodup ha hb (toLex.injective hord)
    rw [KeyedSorting.mergeSort_perm_eq ordLe_iff hsources hcompiled]

end Compilation

section Values

variable {hash : Bytes → Bytes} {missing : MissingKeyPolicy} {inputs inputs' : KeyInputs}

/-- The value a request has for a dimension, as the bytes that are hashed. -/
def canonicalValue (inputs : KeyInputs) : CompiledDimension → Option Bytes
  | .global => some []
  | .authenticatedSubject => (inputs.subject.filter (· ≠ "")).map utf8
  | .ip header trustedHops ipv6Prefix =>
    (resolveIp (header.map Subtype.val) trustedHops ipv6Prefix inputs.toKeyInputs).map utf8
  | .model header => (resolveModel header inputs).map utf8
  | .header name _ => headerBytes inputs.headers name

def kindOf : CompiledDimension → String
  | .global => ""
  | .authenticatedSubject => "subject"
  | .ip _ _ _ => "ip"
  | .model _ => "model"
  | .header _ _ => "hdr"

def message : CompiledDimension → Bytes → Bytes
  | .header name _, value => utf8 name.1 ++ 0 :: value
  | _, value => value

def partText (hash : Bytes → Bytes) (dimension : CompiledDimension) (value : Bytes) : String :=
  opaqueText (kindOf dimension) (hash (message dimension value))

def partsOf (hash : Bytes → Bytes) (inputs : KeyInputs) (dimensions : List CompiledDimension) :
    List String :=
  dimensions.filterMap fun dimension =>
    (canonicalValue inputs dimension).map (partText hash dimension)

theorem resolveDimension_present {dimension : CompiledDimension} {value : Bytes}
    (hdimension : dimension ≠ .global) (h : canonicalValue inputs dimension = some value) :
    resolveDimension hash missing inputs dimension = .part (partText hash dimension value) := by
  cases dimension with
  | global => exact absurd rfl hdimension
  | authenticatedSubject =>
    obtain ⟨subject, hsubject, rfl⟩ := map_eq_some_iff.mp h
    rw [resolveDimension, hsubject]
    rfl
  | ip header trustedHops ipv6Prefix =>
    obtain ⟨canonical, hcanonical, rfl⟩ := map_eq_some_iff.mp h
    rw [resolveDimension, hcanonical]
    rfl
  | model header =>
    obtain ⟨model, hmodel, rfl⟩ := map_eq_some_iff.mp h
    rw [resolveDimension, hmodel]
    rfl
  | header name policy =>
    rw [resolveDimension, show headerBytes inputs.headers name = some value from h]
    rfl

theorem resolveDimension_absent {dimension : CompiledDimension}
    (h : canonicalValue inputs dimension = none) :
    ∃ policy status reason,
      resolveDimension hash missing inputs dimension = missingValue policy status reason := by
  cases dimension with
  | global => cases h
  | authenticatedSubject =>
    rw [resolveDimension, map_eq_none_iff.mp h]
    exact ⟨_, _, _, rfl⟩
  | ip header trustedHops ipv6Prefix =>
    rw [resolveDimension, map_eq_none_iff.mp h]
    exact ⟨_, _, _, rfl⟩
  | model header =>
    rw [resolveDimension, map_eq_none_iff.mp h]
    exact ⟨_, _, _, rfl⟩
  | header name policy =>
    rw [resolveDimension, show headerBytes inputs.headers name = none from h]
    exact ⟨_, _, _, rfl⟩

/-- An admitted request has the parts of its values in the order of the dimensions. -/
theorem resolveParts_admit {dimensions : List CompiledDimension} {parts : List String}
    {key : String} (hglobal : .global ∉ dimensions)
    (h : resolveParts hash missing inputs parts dimensions = .admitted key) :
    key = joinParts hash (parts ++ partsOf hash inputs dimensions) := by
  induction dimensions generalizing parts with
  | nil =>
    cases h
    rw [partsOf, filterMap_nil, append_nil]
  | cons dimension rest ih =>
    rw [mem_cons, not_or] at hglobal
    rw [resolveParts] at h
    rcases hvalue : canonicalValue inputs dimension with _ | value
    · obtain ⟨policy, status, reason, hresolve⟩ :=
        @resolveDimension_absent hash missing inputs dimension hvalue
      rw [hresolve] at h
      have hparts : partsOf hash inputs (dimension :: rest) = partsOf hash inputs rest := by
        rw [partsOf, filterMap_cons, hvalue]
        rfl
      rw [hparts]
      cases policy with
      | reject => cases h
      | fallback => exact ih hglobal.2 h
    · rw [resolveDimension_present (Ne.symm hglobal.1) hvalue] at h
      have hparts : partsOf hash inputs (dimension :: rest) =
          partText hash dimension value :: partsOf hash inputs rest := by
        rw [partsOf, filterMap_cons, hvalue]
        rfl
      rw [hparts, ih hglobal.2 h, append_assoc, singleton_append]

end Values

section Texts

variable {hash : Bytes → Bytes}

def kinds : List String := ["subject", "ip", "model", "hdr"]

theorem toList_opaqueText (kind : String) (digest : Bytes) :
    (opaqueText kind digest).toList =
      kind.toList ++ ':' :: ("v1:".toList ++ Base64Text.encode digest) := by
  have hmark : ":v1:".toList = ':' :: "v1:".toList := rfl
  rw [opaqueText, String.toList_append, String.toList_append, hmark,
    @String.toList_ofList (Base64Text.encode digest), cons_append]

theorem opaqueText_injective {kind kind' : String} {digest digest' : Bytes}
    (hkind : ':' ∉ kind.toList) (hkind' : ':' ∉ kind'.toList)
    (h : opaqueText kind digest = opaqueText kind' digest') : kind = kind' ∧ digest = digest' := by
  have htexts := congrArg String.toList h
  rw [toList_opaqueText, toList_opaqueText] at htexts
  obtain ⟨hfront, hback⟩ := PrefixCodes.terminated_split hkind hkind' htexts
  exact ⟨String.toList_inj.mp hfront, Base64Text.encode_injective (append_cancel_left hback)⟩

theorem bar_notMem_opaqueText {kind : String} (hkind : '|' ∉ kind.toList) (digest : Bytes) :
    '|' ∉ (opaqueText kind digest).toList := by
  rw [toList_opaqueText]
  intro hmem
  rcases mem_append.mp hmem with hmem | hmem
  · exact hkind hmem
  rcases mem_cons.mp hmem with hmem | hmem
  · exact absurd hmem (by decide)
  rcases mem_append.mp hmem with hmem | hmem
  · exact absurd hmem (by decide)
  · exact absurd (Base64Text.mem_alphabet hmem) (by decide)

def Opaque (part : String) : Prop := ∃ kind ∈ kinds, ∃ digest, part = opaqueText kind digest

theorem Opaque.bar_notMem {part : String} (h : Opaque part) : '|' ∉ part.toList := by
  obtain ⟨kind, hkind, digest, rfl⟩ := h
  have hkinds : ∀ kind ∈ kinds, '|' ∉ kind.toList := by decide
  exact bar_notMem_opaqueText (hkinds kind hkind) digest

theorem colon_notMem_kind : ∀ kind ∈ "comp" :: kinds, ':' ∉ kind.toList := by decide

theorem Opaque.ne_fallback {part : String} (h : Opaque part) : part ≠ fallbackKey := by
  obtain ⟨kind, -, digest, rfl⟩ := h
  intro heq
  have hcolon : ':' ∈ fallbackKey.toList := by
    rw [← heq, toList_opaqueText]
    exact mem_append_right _ mem_cons_self
  exact absurd hcolon (by decide)

theorem Opaque.ne_comp {part : String} (h : Opaque part) (digest : Bytes) :
    part ≠ opaqueText "comp" digest := by
  obtain ⟨kind, hkind, digest', rfl⟩ := h
  intro heq
  obtain ⟨hsame, -⟩ := opaqueText_injective (colon_notMem_kind kind (mem_cons_of_mem _ hkind))
    (colon_notMem_kind _ mem_cons_self) heq
  rw [hsame] at hkind
  exact absurd hkind (by decide)

theorem fallback_ne_comp (digest : Bytes) : fallbackKey ≠ opaqueText "comp" digest := by
  intro heq
  have hcolon : ':' ∈ fallbackKey.toList := by
    rw [heq, toList_opaqueText]
    exact mem_append_right _ mem_cons_self
  exact absurd hcolon (by decide)

theorem bar_mem_joined {first second : String} {rest : List String} :
    '|' ∈ ("|".intercalate (first :: second :: rest)).toList := by
  rw [String.toList_intercalate, map_cons, map_cons, intercalate_cons_cons]
  exact mem_append_left _ (mem_append_right _ (mem_singleton_self _))

/-- What the parts are joined to, told apart by its separator and its kind. -/
inductive JoinsTo (hash : Bytes → Bytes) : List String → String → Prop
  | none : JoinsTo hash [] fallbackKey
  | one (part : String) : JoinsTo hash [part] part
  | short {first second : String} {rest : List String} :
      JoinsTo hash (first :: second :: rest) ("|".intercalate (first :: second :: rest))
  | long {first second : String} {rest : List String}
      (hlong : maxKeyLength < ("|".intercalate (first :: second :: rest)).utf8ByteSize) :
      JoinsTo hash (first :: second :: rest)
        (opaqueText "comp" (hash (utf8 ("|".intercalate (first :: second :: rest)))))

theorem joinsTo_joinParts (hash : Bytes → Bytes) (parts : List String) :
    JoinsTo hash parts (joinParts hash parts) := by
  rcases parts with _ | ⟨first, _ | ⟨second, rest⟩⟩
  · exact .none
  · exact .one first
  · rw [joinParts]
    by_cases hshort : ("|".intercalate (first :: second :: rest)).utf8ByteSize ≤ maxKeyLength
    · rw [if_pos hshort]
      exact .short
    · rw [if_neg hshort]
      exact .long (Nat.lt_of_not_le hshort)
    · simp
    · simp

theorem intercalate_injective {parts parts' : List String} (hparts : ∀ part ∈ parts, Opaque part)
    (hparts' : ∀ part ∈ parts', Opaque part) (hne : parts ≠ []) (hne' : parts' ≠ [])
    (h : "|".intercalate parts = "|".intercalate parts') : parts = parts' := by
  have hbar : ∀ parts : List String, (∀ part ∈ parts, Opaque part) →
      ∀ text ∈ parts.map String.toList, '|' ∉ text := by
    intro parts hsealed text htext
    obtain ⟨part, hpart, rfl⟩ := mem_map.mp htext
    exact (hsealed part hpart).bar_notMem
  have htexts := congrArg (fun text => text.toList.splitOn '|') h
  rw [String.toList_intercalate, String.toList_intercalate] at htexts
  change List.splitOn '|' (['|'].intercalate _) = List.splitOn '|' (['|'].intercalate _) at htexts
  rw [splitOn_intercalate '|' (hbar parts hparts) (by simpa using hne),
    splitOn_intercalate '|' (hbar parts' hparts') (by simpa using hne')] at htexts
  exact map_injective_iff.mpr (fun _ _ => String.toList_inj.mp) htexts

theorem joinsTo_injective {parts parts' : List String} {key : String}
    (hparts : ∀ part ∈ parts, Opaque part) (hparts' : ∀ part ∈ parts', Opaque part)
    (hhash : maxKeyLength < ("|".intercalate parts).utf8ByteSize →
      maxKeyLength < ("|".intercalate parts').utf8ByteSize →
      hash (utf8 ("|".intercalate parts)) = hash (utf8 ("|".intercalate parts')) →
      utf8 ("|".intercalate parts) = utf8 ("|".intercalate parts'))
    (h : JoinsTo hash parts key) (h' : JoinsTo hash parts' key) : parts = parts' := by
  have hbar : ∀ {first second : String} {rest : List String} {key : String},
      key = "|".intercalate (first :: second :: rest) → '|' ∈ key.toList :=
    fun heq => heq ▸ bar_mem_joined
  have hcomp : ∀ digest, '|' ∉ (opaqueText "comp" digest).toList :=
    bar_notMem_opaqueText (by decide)
  have hfallback : '|' ∉ fallbackKey.toList := by decide
  generalize hkey : key = key' at h'
  cases h with
  | none =>
    cases h' with
    | none => rfl
    | one => exact absurd hkey.symm (hparts' _ mem_cons_self).ne_fallback
    | short => exact absurd (hbar hkey) hfallback
    | long => exact absurd hkey (fallback_ne_comp _)
  | one =>
    have hsealed := hparts _ mem_cons_self
    cases h' with
    | none => exact absurd hkey hsealed.ne_fallback
    | one => rw [hkey]
    | short => exact absurd (hbar hkey) hsealed.bar_notMem
    | long => exact absurd hkey (hsealed.ne_comp _)
  | short =>
    cases h' with
    | none => exact absurd (hbar hkey.symm) hfallback
    | one => exact absurd (hbar hkey.symm) (hparts' _ mem_cons_self).bar_notMem
    | short =>
      exact intercalate_injective hparts hparts' (cons_ne_nil _ _) (cons_ne_nil _ _) hkey
    | long => exact absurd (hbar hkey.symm) (hcomp _)
  | long hlong =>
    cases h' with
    | none => exact absurd hkey.symm (fallback_ne_comp _)
    | one => exact absurd hkey.symm ((hparts' _ mem_cons_self).ne_comp _)
    | short => exact absurd (hbar hkey) (hcomp _)
    | long hlong' =>
      have hcolon := colon_notMem_kind _ mem_cons_self
      obtain ⟨-, hdigests⟩ := opaqueText_injective hcolon hcolon hkey
      exact intercalate_injective hparts hparts' (cons_ne_nil _ _) (cons_ne_nil _ _)
        (utf8_injective (hhash hlong hlong' hdigests))

end Texts

section Separation

variable {hash : Bytes → Bytes} {inputs inputs' : KeyInputs}

def hashedInputs (hash : Bytes → Bytes) (spec : CompiledKeySpec) (inputs : KeyInputs) :
    List Bytes :=
  (spec.dimensions.filterMap fun dimension =>
    (canonicalValue inputs dimension).map (message dimension)) ++
  if maxKeyLength < ("|".intercalate (partsOf hash inputs spec.dimensions)).utf8ByteSize then
    [utf8 ("|".intercalate (partsOf hash inputs spec.dimensions))]
  else []

theorem message_mem {spec : CompiledKeySpec} {dimension : CompiledDimension} {value : Bytes}
    (hmem : dimension ∈ spec.dimensions) (hvalue : canonicalValue inputs dimension = some value) :
    message dimension value ∈ hashedInputs hash spec inputs := by
  refine mem_append_left _ (mem_filterMap.mpr ⟨dimension, hmem, ?_⟩)
  rw [hvalue]
  rfl

theorem joined_mem {spec : CompiledKeySpec}
    (hlong : maxKeyLength < ("|".intercalate (partsOf hash inputs spec.dimensions)).utf8ByteSize) :
    utf8 ("|".intercalate (partsOf hash inputs spec.dimensions)) ∈
      hashedInputs hash spec inputs := by
  rw [hashedInputs, if_pos hlong]
  exact mem_append_right _ (mem_singleton_self _)

theorem mem_partsOf {dimensions : List CompiledDimension} {part : String} :
    part ∈ partsOf hash inputs dimensions ↔ ∃ dimension ∈ dimensions, ∃ value,
      canonicalValue inputs dimension = some value ∧ partText hash dimension value = part := by
  rw [partsOf, mem_filterMap]
  refine exists_congr fun dimension => and_congr_right fun _ => ?_
  exact map_eq_some_iff

theorem kindOf_mem {dimension : CompiledDimension} (h : dimension ≠ .global) :
    kindOf dimension ∈ kinds := by
  cases dimension with
  | global => exact absurd rfl h
  | _ => simp [kindOf, kinds]

theorem isHeaderChar_visible {c : Char} (h : isHeaderChar c = true) :
    33 ≤ c.toNat ∧ c.toNat < 127 := by
  have hspecials : "!#$%&'*+-.^_`|~".toList.all
      (fun c => decide (33 ≤ c.toNat ∧ c.toNat < 127)) = true := by decide
  rw [isHeaderChar, Bool.or_eq_true, Bool.or_eq_true] at h
  rcases h with (hdigit | hlower) | hspecial
  · rw [Char.isDigit, Bool.and_eq_true, decide_eq_true_iff, decide_eq_true_iff] at hdigit
    have hlow : '0'.val.toNat ≤ c.val.toNat := UInt32.le_iff_toNat_le.mp hdigit.1
    have hhigh : c.val.toNat ≤ '9'.val.toNat := UInt32.le_iff_toNat_le.mp hdigit.2
    have hzero : '0'.val.toNat = 48 := rfl
    have hnine : '9'.val.toNat = 57 := rfl
    rw [Char.toNat]
    omega
  · have hbounds : (decide ('a'.val ≤ c.val) && decide (c.val ≤ 'z'.val)) = true := hlower
    rw [Bool.and_eq_true, decide_eq_true_iff, decide_eq_true_iff] at hbounds
    have hlow : 'a'.val.toNat ≤ c.val.toNat := UInt32.le_iff_toNat_le.mp hbounds.1
    have hhigh : c.val.toNat ≤ 'z'.val.toNat := UInt32.le_iff_toNat_le.mp hbounds.2
    have ha : 'a'.val.toNat = 97 := rfl
    have hz : 'z'.val.toNat = 122 := rfl
    rw [Char.toNat]
    omega
  · exact of_decide_eq_true (all_eq_true.mp hspecials c (contains_iff_mem.mp hspecial))

theorem zero_notMem_name (name : HeaderName) : (0 : UInt8) ∉ utf8 name.1 := by
  intro hmem
  have hbytes : utf8 name.1 = name.1.toList.flatMap String.utf8EncodeChar :=
    Utf8Text.ascii_eq name.1
  rw [hbytes] at hmem
  obtain ⟨c, hc, hzero⟩ := mem_flatMap.mp hmem
  obtain ⟨hlow, hhigh⟩ := isHeaderChar_visible (all_eq_true.mp name.2.2.2 c hc)
  have hsize : c.utf8Size = 1 := by
    rw [Char.utf8Size_eq_one_iff, UInt32.le_iff_toNat_le]
    have hnat : c.val.toNat = c.toNat := rfl
    have hmax : (127 : UInt32).toNat = 127 := rfl
    omega
  rw [String.utf8EncodeChar_eq_singleton hsize, mem_singleton] at hzero
  have hvalue := congrArg UInt8.toNat hzero
  rw [UInt32.toNat_toUInt8] at hvalue
  have hnat : c.val.toNat = c.toNat := rfl
  have hnone : (0 : UInt8).toNat = 0 := rfl
  omega

/-- A part tells the source of its dimension and the value. -/
theorem message_injective {dimension dimension' : CompiledDimension} {value value' : Bytes}
    (hdimension : dimension ≠ .global) (hkind : kindOf dimension = kindOf dimension')
    (h : message dimension value = message dimension' value') :
    dimensionOrd dimension = dimensionOrd dimension' ∧ value = value' := by
  cases dimension with
  | global => exact absurd rfl hdimension
  | header name policy =>
    cases dimension' with
    | header name' policy' =>
      obtain ⟨hname, hvalue⟩ :=
        PrefixCodes.terminated_split (zero_notMem_name name) (zero_notMem_name name') h
      rw [dimensionOrd, dimensionOrd, utf8_injective hname]
      exact ⟨rfl, hvalue⟩
    | _ => simp [kindOf] at hkind
  | authenticatedSubject =>
    cases dimension' with
    | authenticatedSubject => exact ⟨rfl, h⟩
    | _ => simp [kindOf] at hkind
  | ip header trustedHops ipv6Prefix =>
    cases dimension' with
    | ip header' trustedHops' ipv6Prefix' => exact ⟨rfl, h⟩
    | _ => simp [kindOf] at hkind
  | model header =>
    cases dimension' with
    | model header' => exact ⟨rfl, h⟩
    | _ => simp [kindOf] at hkind

theorem global_of_compiled {missing : MissingKeyPolicy} {dimension : KeyDimension}
    (h : compiledOf missing dimension = some .global) : dimension = .global := by
  have hmap : ∀ {α : Type} {result : Except String α} {f : α → CompiledDimension},
      (∀ a, f a ≠ .global) → (result.map f).toOption ≠ some .global := by
    intro α result f hf heq
    cases result with
    | error e => cases heq
    | ok a => exact hf a (Option.some.inj heq)
  cases dimension with
  | global => rfl
  | authenticatedSubject => cases h
  | ip header trustedHops ipv6Prefix =>
    rw [compiledOf, compileDimension] at h
    unfold compileIpDimension at h
    split at h
    · cases h
    · cases header with
      | none => cases h
      | some name =>
        refine absurd h (hmap fun a heq => ?_)
        cases heq
  | model header =>
    cases header with
    | none => cases h
    | some name =>
      refine absurd h (hmap fun a heq => ?_)
      cases heq
  | header name policy =>
    rw [compiledOf, compileDimension] at h
    split at h
    · cases h
    · refine absurd h (hmap fun a heq => ?_)
      cases heq

theorem sources_of_compiled {spec : KeySpec} {compiled : CompiledKeySpec}
    (h : compileKeySpec spec = .ok compiled) :
    (compiled.dimensions.map dimensionOrd).Nodup ∧
      (compiled.dimensions = [.global] ∨ .global ∉ compiled.dimensions) := by
  obtain ⟨hempty, hglobal, ⟨-, hnodup⟩, rfl⟩ := compileKeySpec_ok_iff.mp h
  have hperm := mergeSort_perm (spec.dimensions.filterMap (compiledOf spec.missing)) ordLe
  refine ⟨((hperm.map dimensionOrd).nodup_iff).mpr hnodup, ?_⟩
  by_cases hmem : .global ∈ (spec.dimensions.filterMap (compiledOf spec.missing)).mergeSort ordLe
  · left
    obtain ⟨dimension, hdimension, hcompiled⟩ := mem_filterMap.mp (hperm.subset hmem)
    rw [global_of_compiled hcompiled] at hdimension
    have hlength : spec.dimensions.length ≤ 1 := by
      by_contra hlong
      exact hglobal ⟨hdimension, by omega⟩
    have hsingle : spec.dimensions = [.global] := by
      rcases hdimensions : spec.dimensions with _ | ⟨first, _ | ⟨second, rest⟩⟩
      · exact absurd hdimensions hempty
      · rw [hdimensions, mem_singleton] at hdimension
        rw [← hdimension]
      · rw [hdimensions, length_cons, length_cons] at hlength
        omega
    rw [hsingle]
    exact mergeSort_singleton _
  · exact .inr hmem

theorem canonicalValue_of_parts {spec : CompiledKeySpec}
    (hinjective : Set.InjOn hash
      {m | m ∈ hashedInputs hash spec inputs ∨ m ∈ hashedInputs hash spec inputs'})
    (hnodup : (spec.dimensions.map dimensionOrd).Nodup) (hglobal : .global ∉ spec.dimensions)
    (hparts : ∀ part ∈ partsOf hash inputs spec.dimensions,
      part ∈ partsOf hash inputs' spec.dimensions)
    {dimension : CompiledDimension} (hmem : dimension ∈ spec.dimensions) {value : Bytes}
    (hvalue : canonicalValue inputs dimension = some value) :
    canonicalValue inputs' dimension = some value := by
  have hne : ∀ {dimension}, dimension ∈ spec.dimensions → dimension ≠ .global := by
    rintro dimension hmem rfl
    exact hglobal hmem
  have hpart := hparts _ (mem_partsOf.mpr ⟨dimension, hmem, value, hvalue, rfl⟩)
  obtain ⟨dimension', hmem', value', hvalue', htext⟩ := mem_partsOf.mp hpart
  have hcolon : ∀ {dimension}, dimension ∈ spec.dimensions → ':' ∉ (kindOf dimension).toList :=
    fun hmem => colon_notMem_kind _ (mem_cons_of_mem _ (kindOf_mem (hne hmem)))
  obtain ⟨hkind, hdigest⟩ := opaqueText_injective (hcolon hmem') (hcolon hmem) htext
  have hmessage := hinjective (.inr (message_mem hmem' hvalue')) (.inl (message_mem hmem hvalue))
    hdigest
  obtain ⟨hord, rfl⟩ := message_injective (hne hmem') hkind hmessage
  rw [← inj_on_of_nodup_map hnodup hmem' hmem hord]
  exact hvalue'

theorem key_eq_iff {spec : KeySpec} {compiled : CompiledKeySpec} {key key' : String}
    (hcompiled : compileKeySpec spec = .ok compiled)
    (hinjective : Set.InjOn hash
      {m | m ∈ hashedInputs hash compiled inputs ∨ m ∈ hashedInputs hash compiled inputs'})
    (h : resolve hash compiled inputs = .admitted key)
    (h' : resolve hash compiled inputs' = .admitted key') :
    key = key' ↔ ∀ dimension ∈ compiled.dimensions,
      canonicalValue inputs dimension = canonicalValue inputs' dimension := by
  obtain ⟨hnodup, hsingle | hglobal⟩ := sources_of_compiled hcompiled
  · rw [resolve, if_pos hsingle] at h h'
    cases h
    cases h'
    refine iff_of_true rfl fun dimension hmem => ?_
    rw [hsingle, mem_singleton] at hmem
    rw [hmem]
    rfl
  have hmany : compiled.dimensions ≠ [.global] := by
    intro hsingle
    rw [hsingle] at hglobal
    exact hglobal mem_cons_self
  rw [resolve, if_neg hmany] at h h'
  have hkey := resolveParts_admit hglobal h
  have hkey' := resolveParts_admit hglobal h'
  rw [nil_append] at hkey hkey'
  have hsealed : ∀ inputs, ∀ part ∈ partsOf hash inputs compiled.dimensions, Opaque part := by
    intro inputs part hpart
    obtain ⟨dimension, hmem, value, -, rfl⟩ := mem_partsOf.mp hpart
    refine ⟨kindOf dimension, kindOf_mem ?_, _, rfl⟩
    rintro rfl
    exact hglobal hmem
  constructor
  · intro hkeys
    have hjoins := joinsTo_joinParts hash (partsOf hash inputs compiled.dimensions)
    have hjoins' := joinsTo_joinParts hash (partsOf hash inputs' compiled.dimensions)
    rw [← hkey] at hjoins
    rw [← hkey', ← hkeys] at hjoins'
    have hparts := joinsTo_injective (hsealed inputs) (hsealed inputs')
      (fun hlong hlong' hhash =>
        hinjective (.inl (joined_mem hlong)) (.inr (joined_mem hlong')) hhash) hjoins hjoins'
    have hswapped : Set.InjOn hash
        {m | m ∈ hashedInputs hash compiled inputs' ∨ m ∈ hashedInputs hash compiled inputs} :=
      hinjective.mono fun m hm => hm.symm
    intro dimension hmem
    apply Option.ext
    intro value
    constructor
    · exact canonicalValue_of_parts hinjective hnodup hglobal (fun part hpart => hparts ▸ hpart)
        hmem
    · exact canonicalValue_of_parts hswapped hnodup hglobal (fun part hpart => hparts ▸ hpart)
        hmem
  · intro hvalues
    have hparts : partsOf hash inputs compiled.dimensions =
        partsOf hash inputs' compiled.dimensions :=
      filterMap_congr fun dimension hmem => by rw [hvalues dimension hmem]
    rw [hkey, hkey', hparts]

/-- Writing the dimensions in another order changes neither whether a key compiles nor any decision
nor the fingerprint, and two admitted requests share a key exactly when they have the same values
for all dimensions. -/
theorem keys_separate_values (hash : Bytes → Bytes) {spec spec' : KeySpec}
    (hperm : spec'.dimensions.Perm spec.dimensions) (hmissing : spec'.missing = spec.missing) :
    ((∃ compiled, compileKeySpec spec = .ok compiled) ↔
      ∃ compiled, compileKeySpec spec' = .ok compiled) ∧
    ∀ compiled compiled', compileKeySpec spec = .ok compiled →
      compileKeySpec spec' = .ok compiled' →
      (∀ inputs, resolve hash compiled' inputs = resolve hash compiled inputs) ∧
      configFingerprint hash compiled' = configFingerprint hash compiled ∧
      ∀ inputs inputs' key key', Set.InjOn hash
          {m | m ∈ hashedInputs hash compiled inputs ∨ m ∈ hashedInputs hash compiled inputs'} →
        resolve hash compiled inputs = .admitted key →
        resolve hash compiled inputs' = .admitted key' →
        (key = key' ↔ ∀ dimension ∈ compiled.dimensions,
          canonicalValue inputs dimension = canonicalValue inputs' dimension) := by
  constructor
  · constructor
    · rintro ⟨compiled, hcompiled⟩
      exact ⟨compiled, compileKeySpec_perm hperm hmissing hcompiled⟩
    · rintro ⟨compiled, hcompiled⟩
      exact ⟨compiled, compileKeySpec_perm hperm.symm hmissing.symm hcompiled⟩
  · intro compiled compiled' hcompiled hcompiled'
    have hsame := compileKeySpec_perm hperm hmissing hcompiled
    rw [hcompiled'] at hsame
    cases hsame
    refine ⟨fun _ => rfl, rfl, ?_⟩
    intro inputs inputs' key key' hinjective hadmit hadmit'
    exact key_eq_iff hcompiled hinjective hadmit hadmit'

def tenantHeader : HeaderName := ⟨"x-tenant", by decide⟩

def tenantSpec : KeySpec := ⟨[.authenticatedSubject, .header "X-Tenant" none], .fallback⟩

def reorderedSpec : KeySpec := ⟨[.header "X-Tenant" none, .authenticatedSubject], .fallback⟩

def tenantCompiled : CompiledKeySpec :=
  ⟨[.authenticatedSubject, .header tenantHeader .fallback], .fallback⟩

def tenantRequest (subject : String) : KeyInputs where
  clientAddr := none
  headers := [("x-tenant", utf8 "a")]
  subject := some subject
  bodyProbe := none

theorem compile_tenantSpec : compileKeySpec tenantSpec = .ok tenantCompiled := by
  have hcompiled : tenantSpec.dimensions.filterMap (compiledOf tenantSpec.missing) =
      tenantCompiled.dimensions := by decide +kernel
  refine compileKeySpec_ok_iff.mpr ⟨by decide, by decide, ⟨by decide +kernel, ?_⟩, ?_⟩
  · rw [hcompiled]
    decide +kernel
  · rw [hcompiled, mergeSort_of_pairwise (by decide +kernel)]
    rfl

/-- Two subjects of one tenant have two keys, whichever dimension is written first. -/
theorem reordered_spec_separates_subjects :
    ∃ compiled, compileKeySpec reorderedSpec = .ok compiled ∧ ∃ key key',
      resolve id compiled (tenantRequest "u") = .admitted key ∧
      resolve id compiled (tenantRequest "v") = .admitted key' ∧ key ≠ key' := by
  have hperm : reorderedSpec.dimensions.Perm tenantSpec.dimensions := List.Perm.swap _ _ []
  obtain ⟨hcompiles, hall⟩ := keys_separate_values id hperm rfl
  obtain ⟨compiled, hcompiled⟩ := hcompiles.mp ⟨_, compile_tenantSpec⟩
  obtain ⟨hresolve, -, hkeys⟩ := hall _ _ compile_tenantSpec hcompiled
  refine ⟨compiled, hcompiled, ?_⟩
  rw [hresolve, hresolve]
  refine ⟨_, _, rfl, rfl, fun heq => ?_⟩
  have hvalues := (hkeys (tenantRequest "u") (tenantRequest "v") _ _ Function.injective_id.injOn
    rfl rfl).mp heq .authenticatedSubject mem_cons_self
  exact absurd hvalues (by decide)

end Separation

end KeySeparation
