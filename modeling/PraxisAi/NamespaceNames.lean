import PraxisAi.ClientToolLowering
import PraxisAi.DecimalText
import PraxisAi.SeparatedWords

/-! # Names of namespace members

A member of a namespace is shown to the backend under one flat name. Two members get two names as
long as the hash tells their pairs apart where the plain join of the names cannot. -/
namespace NamespaceNames

open List
open ResponseState (maxFunctionNameLen)
open ClientToolLowering ClientToolPlans SeparatedWords DecimalText

def lengthPrefixedPair (ns member : String) : String :=
  ns.utf8ByteSize.repr ++ ":" ++ ns ++ ":" ++ member

def verbatimName (ns member : String) : String := namespaceMemberPrefix ++ ns ++ "__" ++ member

def hashedName (ns member : String) : String :=
  String.ofList ((verbatimName ns member).toList.take
    (maxFunctionNameLen - hashedNamespaceMemberSuffixLen)) ++ "___" ++
      hex16 (namespacePairHash ns member)

def TakesVerbatim (ns member : String) : Prop :=
  (verbatimName ns member).length ≤ maxFunctionNameLen ∧ verbatimFlatteningIsInjective ns member

instance (ns member : String) : Decidable (TakesVerbatim ns member) :=
  inferInstanceAs (Decidable (_ ∧ _))

theorem namespaceMemberName_eq (ns member : String) :
    namespaceMemberName ns member =
      if TakesVerbatim ns member then verbatimName ns member else hashedName ns member := rfl

/-! ## The readable form -/

theorem hasDelimiter_iff (l : List Char) : hasDelimiter l = true ↔ ['_', '_'] <:+: l := by
  induction l with
  | nil => simp [hasDelimiter]
  | cons c l ih =>
    rw [infix_cons_iff, ← ih]
    cases l with
    | nil => simp [hasDelimiter, prefix_cons_iff]
    | cons d l =>
      by_cases h : c = '_' ∧ d = '_'
      · obtain ⟨rfl, rfl⟩ := h
        simp [hasDelimiter]
      · have hstep : hasDelimiter (c :: d :: l) = hasDelimiter (d :: l) := by
          rw [hasDelimiter]
          rintro rest rfl heq
          exact h ⟨rfl, (List.cons.inj heq).1⟩
        rw [hstep]
        constructor
        · exact Or.inr
        · rintro (hlead | hrest)
          · obtain ⟨rest, hrest⟩ := hlead
            obtain ⟨rfl, htail⟩ := List.cons.inj hrest
            exact absurd ⟨rfl, (List.cons.inj htail).1.symm⟩ h
          · exact hrest

theorem plain_of_isPlainComponent {text : String} (h : isPlainComponent text = true) :
    Plain '_' text.toList := by
  simp only [isPlainComponent, Bool.and_eq_true, Bool.not_eq_true', bne_iff_ne] at h
  refine ⟨?_, h.1.2, h.2⟩
  rw [← hasDelimiter_iff, h.1.1]
  exact Bool.false_ne_true

theorem plain_of_takesVerbatim {ns member : String} (h : TakesVerbatim ns member) :
    Plain '_' ns.toList ∧ Plain '_' member.toList := by
  have hboth := Bool.and_eq_true_iff.mp h.2
  exact ⟨plain_of_isPlainComponent hboth.1, plain_of_isPlainComponent hboth.2⟩

theorem toList_verbatimName (ns member : String) :
    (verbatimName ns member).toList =
      join '_' "agentic_ns".toList (join '_' ns.toList member.toList) := by
  simp [verbatimName, namespaceMemberPrefix, join]

theorem verbatimName_injective {ns member ns' member' : String} (h : TakesVerbatim ns member)
    (h' : TakesVerbatim ns' member') (heq : verbatimName ns member = verbatimName ns' member') :
    ns = ns' ∧ member = member' := by
  have hlist := congrArg String.toList heq
  rw [toList_verbatimName, toList_verbatimName] at hlist
  have hinner := (List.cons.inj (List.cons.inj (append_cancel_left hlist)).2).2
  obtain ⟨hns, hmember⟩ :=
    join_injective (plain_of_takesVerbatim h).1 (plain_of_takesVerbatim h').1 hinner
  exact ⟨String.toList_inj.mp hns, String.toList_inj.mp hmember⟩

/-! ## The hashed form -/

theorem digitChar_injective : ∀ a < 16, ∀ b < 16, Nat.digitChar a = Nat.digitChar b → a = b := by
  decide

theorem hex16_injective {a b : UInt64} (h : hex16 a = hex16 b) : a = b := by
  have hdigit : ∀ i < 16, a.toNat / 16 ^ i % 16 = b.toNat / 16 ^ i % 16 := by
    intro i hi
    have hlist := map_inj_left.mp (String.ofList_inj.mp h) i (by simpa using hi)
    exact digitChar_injective _ (Nat.mod_lt _ (by omega)) _ (Nat.mod_lt _ (by omega)) hlist
  have hmod : ∀ k ≤ 16, a.toNat % 16 ^ k = b.toNat % 16 ^ k := by
    intro k hk
    induction k with
    | zero => rw [Nat.pow_zero, Nat.mod_one, Nat.mod_one]
    | succ k ih => rw [Nat.mod_pow_succ, Nat.mod_pow_succ, ih (by omega), hdigit k (by omega)]
  have hall := hmod 16 le_rfl
  have ha : a.toNat < 16 ^ 16 := a.toNat_lt
  have hb : b.toNat < 16 ^ 16 := b.toNat_lt
  rw [Nat.mod_eq_of_lt ha, Nat.mod_eq_of_lt hb] at hall
  exact UInt64.toNat_inj.mp hall

theorem length_hex16 (n : UInt64) : (hex16 n).toList.length = 16 := by
  simp [hex16]

theorem toList_hashedName (ns member : String) :
    (hashedName ns member).toList =
      (verbatimName ns member).toList.take 45 ++
        (['_', '_', '_'] ++ (hex16 (namespacePairHash ns member)).toList) := by
  simp [hashedName, maxFunctionNameLen, hashedNamespaceMemberSuffixLen]

theorem pairHash_eq_of_hashedName {ns member ns' member' : String}
    (h : hashedName ns member = hashedName ns' member') :
    namespacePairHash ns member = namespacePairHash ns' member' := by
  have hlist := congrArg String.toList h
  rw [toList_hashedName, toList_hashedName] at hlist
  have hsuffix := (append_inj' hlist (by simp [length_hex16])).2
  have hhex := append_cancel_left hsuffix
  exact hex16_injective (String.toList_inj.mp hhex)

/-- Only the hashed form holds three underscores in a row. -/
theorem verbatimName_ne_hashedName {ns member : String} (hns : ns ≠ "")
    (h : TakesVerbatim ns member) (ns' member' : String) :
    verbatimName ns member ≠ hashedName ns' member' := by
  intro heq
  obtain ⟨hplain, hplain'⟩ := plain_of_takesVerbatim h
  have hlead : Plain '_' "agentic_ns".toList := plain_of_isPlainComponent (by decide)
  have hne : ns.toList ≠ [] := by
    intro hnil
    exact hns (String.toList_inj.mp hnil)
  apply noTriple_join_join hlead hplain hne hplain'
  rw [← toList_verbatimName, heq, toList_hashedName]
  exact ⟨_, _, append_assoc _ _ _⟩

/-! ## The hashed text -/

theorem eq_nil_of_utf8Len {l : List Char} (h : String.utf8Len l = 0) : l = [] := by
  cases l with
  | nil => rfl
  | cons c l =>
    rw [String.utf8Len_cons] at h
    have := c.utf8Size_pos
    omega

theorem utf8Len_toList (text : String) : String.utf8Len text.toList = text.utf8ByteSize := by
  rw [← String.utf8ByteSize_ofList, String.ofList_toList]

theorem append_inj_of_utf8Len {a b c d : List Char} (hsize : String.utf8Len a = String.utf8Len c)
    (h : a ++ b = c ++ d) : a = c ∧ b = d := by
  have hsame : a = c := by
    rcases append_eq_append_iff.mp h with ⟨e, rfl, -⟩ | ⟨e, rfl, -⟩
    · rw [String.utf8Len_append] at hsize
      rw [eq_nil_of_utf8Len (l := e) (by omega), append_nil]
    · rw [String.utf8Len_append] at hsize
      rw [eq_nil_of_utf8Len (l := e) (by omega), append_nil]
  subst hsame
  exact ⟨rfl, append_cancel_left h⟩

theorem decimal_injective {n m : ℕ} (h : decimal n = decimal m) : n = m := by
  rw [← foldl_decimal n, h, foldl_decimal]

theorem lengthPrefixedPair_injective {ns member ns' member' : String}
    (h : lengthPrefixedPair ns member = lengthPrefixedPair ns' member') :
    ns = ns' ∧ member = member' := by
  have hlist : decimal ns.utf8ByteSize ++ ':' :: (ns.toList ++ ':' :: member.toList) =
      decimal ns'.utf8ByteSize ++ ':' :: (ns'.toList ++ ':' :: member'.toList) := by
    simpa [lengthPrefixedPair, Nat.repr, decimal] using congrArg String.toList h
  have hsplit := congrArg (splitOnce ':') hlist
  rw [splitOnce_append (not_mem_decimal (by decide) _),
    splitOnce_append (not_mem_decimal (by decide) _), Option.some.injEq, Prod.mk.injEq] at hsplit
  have hsize := decimal_injective hsplit.1
  rw [← utf8Len_toList, ← utf8Len_toList] at hsize
  obtain ⟨hns, hmember⟩ := append_inj_of_utf8Len hsize hsplit.2
  exact ⟨String.toList_inj.mp hns, String.toList_inj.mp (List.cons.inj hmember).2⟩

/-! ## Lengths -/

theorem length_namespaceMemberName (ns member : String) :
    (namespaceMemberName ns member).length ≤ 64 := by
  rw [namespaceMemberName_eq]
  by_cases h : TakesVerbatim ns member
  · rw [if_pos h]
    exact h.1
  · rw [if_neg h, ← String.length_toList, toList_hashedName]
    simp [length_hex16]

def IsAscii (text : String) : Prop := ∀ c ∈ text.toList, c.utf8Size = 1

theorem utf8Len_of_ascii {l : List Char} (h : ∀ c ∈ l, c.utf8Size = 1) :
    String.utf8Len l = l.length := by
  induction l with
  | nil => rfl
  | cons c l ih =>
    rw [List.forall_mem_cons] at h
    rw [String.utf8Len_cons, h.1, ih h.2, length_cons]

theorem isAscii_verbatimName {ns member : String} (hns : IsAscii ns) (hmember : IsAscii member) :
    IsAscii (verbatimName ns member) := by
  have hall : ("agentic_ns__".toList.all fun c => c.utf8Size == 1) = true := by decide
  have hlead : ∀ c ∈ "agentic_ns__".toList, c.utf8Size = 1 := by
    intro c hc
    exact eq_of_beq (all_eq_true.mp hall c hc)
  intro c hc
  simp only [verbatimName, namespaceMemberPrefix, String.toList_append, mem_append] at hc
  rcases hc with ((hc | hc) | hc) | hc
  · exact hlead c hc
  · exact hns c hc
  · exact hlead c (mem_of_mem_drop (i := 10) hc)
  · exact hmember c hc

theorem digitChar_ascii : ∀ d < 16, (Nat.digitChar d).utf8Size = 1 := by decide

theorem isAscii_namespaceMemberName {ns member : String} (hns : IsAscii ns)
    (hmember : IsAscii member) : IsAscii (namespaceMemberName ns member) := by
  have hverbatim := isAscii_verbatimName hns hmember
  rw [namespaceMemberName_eq]
  by_cases h : TakesVerbatim ns member
  · rw [if_pos h]
    exact hverbatim
  · rw [if_neg h]
    intro c hc
    rw [toList_hashedName, mem_append, mem_append] at hc
    rcases hc with hc | hc | hc
    · exact hverbatim c (mem_of_mem_take hc)
    · obtain rfl : c = '_' := by simpa using hc
      rfl
    · rw [hex16, String.toList_ofList] at hc
      obtain ⟨i, -, rfl⟩ := mem_map.mp hc
      exact digitChar_ascii _ (Nat.mod_lt _ (by omega))

theorem utf8ByteSize_namespaceMemberName {ns member : String} (hns : IsAscii ns)
    (hmember : IsAscii member) : (namespaceMemberName ns member).utf8ByteSize ≤ 64 := by
  rw [← utf8Len_toList, utf8Len_of_ascii (isAscii_namespaceMemberName hns hmember),
    String.length_toList]
  exact length_namespaceMemberName ns member

/-! ## Two members, two names -/

theorem namespaceMemberName_injective {ns member ns' member' : String} (hns : ns ≠ "")
    (hns' : ns' ≠ "")
    (hhash : namespacePairHash ns member = namespacePairHash ns' member' →
      lengthPrefixedPair ns member = lengthPrefixedPair ns' member')
    (h : namespaceMemberName ns member = namespaceMemberName ns' member') :
    ns = ns' ∧ member = member' := by
  rw [namespaceMemberName_eq, namespaceMemberName_eq] at h
  by_cases hv : TakesVerbatim ns member
  · by_cases hv' : TakesVerbatim ns' member'
    · rw [if_pos hv, if_pos hv'] at h
      exact verbatimName_injective hv hv' h
    · rw [if_pos hv, if_neg hv'] at h
      exact absurd h (verbatimName_ne_hashedName hns hv ns' member')
  · by_cases hv' : TakesVerbatim ns' member'
    · rw [if_neg hv, if_pos hv'] at h
      exact absurd h.symm (verbatimName_ne_hashedName hns' hv' ns member)
    · rw [if_neg hv, if_neg hv'] at h
      exact lengthPrefixedPair_injective (hhash (pairHash_eq_of_hashedName h))

/-- Different members of namespaces with a name are shown under different names of at most 64
characters, unless the hash confuses the two pairs. -/
theorem namespace_members_apart (ns member ns' member' : String) (hns : ns ≠ "") (hns' : ns' ≠ "")
    (hpairs : (ns, member) ≠ (ns', member'))
    (hhash : namespacePairHash ns member = namespacePairHash ns' member' →
      lengthPrefixedPair ns member = lengthPrefixedPair ns' member') :
    namespaceMemberName ns member ≠ namespaceMemberName ns' member' ∧
    (namespaceMemberName ns member).length ≤ 64 ∧ (namespaceMemberName ns' member').length ≤ 64 ∧
    (IsAscii ns → IsAscii member → (namespaceMemberName ns member).utf8ByteSize ≤ 64) ∧
    (IsAscii ns' → IsAscii member' → (namespaceMemberName ns' member').utf8ByteSize ≤ 64) ∧
    (TakesVerbatim ns member → ¬TakesVerbatim ns' member' →
      namespaceMemberName ns member = verbatimName ns member ∧
      namespaceMemberName ns' member' = hashedName ns' member' ∧
      verbatimName ns member ≠ hashedName ns' member') := by
  refine ⟨?_, length_namespaceMemberName _ _, length_namespaceMemberName _ _,
    utf8ByteSize_namespaceMemberName, utf8ByteSize_namespaceMemberName, ?_⟩
  · intro h
    obtain ⟨rfl, rfl⟩ := namespaceMemberName_injective hns hns' hhash h
    exact hpairs rfl
  · intro hv hv'
    refine ⟨?_, ?_, verbatimName_ne_hashedName hns hv ns' member'⟩
    · rw [namespaceMemberName_eq, if_pos hv]
    · rw [namespaceMemberName_eq, if_neg hv']

theorem namespace_members_apart_joined :
    namespacePairHash "a" "b__c" ≠ namespacePairHash "a__b" "c" ∧
    namespaceMemberName "a" "b__c" ≠ namespaceMemberName "a__b" "c" := by
  have hhash : namespacePairHash "a" "b__c" ≠ namespacePairHash "a__b" "c" := by decide
  refine ⟨hhash, (namespace_members_apart "a" "b__c" "a__b" "c" (by decide) (by decide) (by decide)
    ?_).1⟩
  intro h
  exact absurd h hhash

/-- Forty characters are more than 64 bytes. -/
theorem accented_namespace_exceeds_bytes :
    namespaceMemberName "ééééééééééééééééééééééééé" "m" =
        verbatimName "ééééééééééééééééééééééééé" "m" ∧
      (namespaceMemberName "ééééééééééééééééééééééééé" "m").length = 40 ∧
      64 < (namespaceMemberName "ééééééééééééééééééééééééé" "m").utf8ByteSize := by
  decide

end NamespaceNames
