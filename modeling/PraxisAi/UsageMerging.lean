import PraxisAi.ResponseState

/-! # Adding up usage

The rounds of a response report their usage as nested objects of counts. Merged one after the other
they give, at every path, the sum of what was reported there, cut off at the largest `u64`. -/
namespace UsageMerging

open List Option
open JsonValues FiniteTranslation ResponseState SaturatingArithmetic

/-- Two trees of `u64` counts with the same keys at every level, and counts that are related. -/
inductive Related (R : ℕ → ℕ → Prop) : Json → Json → Prop
  | leaf {s t : String} {m n : ℕ} (left : asU64 (.num s) = some m) (right : asU64 (.num t) = some n)
      (related : R m n) : Related R (.num s) (.num t)
  | node {fields fields' : List (String × Json)} (unique : (fields.map Prod.fst).Nodup)
      (unique' : (fields'.map Prod.fst).Nodup)
      (keys : ∀ key, (fields.lookup key).isSome = (fields'.lookup key).isSome)
      (values : ∀ key v v', fields.lookup key = some v → fields'.lookup key = some v' →
        Related R v v') :
      Related R (.obj fields) (.obj fields')

abbrev Alike : Json → Json → Prop := Related fun _ _ => True

/-- The same object: the order of keys does not count. -/
def SameObject (a b : Json) : Prop := a = b ∨ Related Eq a b

def leafAt : List String → Json → Option ℕ
  | [], .num text => asU64 (.num text)
  | key :: path, .obj fields => (fields.lookup key).bind (leafAt path)
  | _, _ => none

def total (path : List String) (usages : List Json) : ℕ :=
  (usages.map fun usage => (leafAt path usage).getD 0).sum

def foldUsage (usages : List Json) : Json := usages.foldl mergeUsage .null

section Trees

variable {a b c : Json}

theorem Alike.symm (h : Alike a b) : Alike b a := by
  induction h with
  | leaf left right => exact .leaf right left trivial
  | node unique unique' keys _ ih =>
    exact .node unique' unique (fun key => (keys key).symm)
      fun key v v' hv hv' => ih key v' v hv' hv

theorem Alike.trans (h : Alike a b) (h' : Alike b c) : Alike a c := by
  induction h generalizing c with
  | leaf left _ =>
    cases h' with
    | leaf _ right => exact .leaf left right trivial
  | node unique unique' keys _ ih =>
    cases h' with
    | node _ last keys' values' =>
      refine .node unique last (fun key => (keys key).trans (keys' key)) fun key v w hv hw => ?_
      obtain ⟨u, hu⟩ := isSome_iff_exists.mp ((keys key).symm.trans (by rw [hv]; rfl))
      exact ih key v u hv hu (values' key u w hu hw)

theorem Alike.leafAt_isSome (h : Alike a b) (path : List String) :
    (leafAt path a).isSome = (leafAt path b).isSome := by
  induction h generalizing path with
  | leaf left right =>
    cases path with
    | nil => simp only [leafAt, left, right, isSome_some]
    | cons key path => rfl
  | @node fields fields' _ _ keys _ ih =>
    cases path with
    | nil => rfl
    | cons key path =>
      have hkey := keys key
      rcases hv : fields.lookup key with _ | v
      · rw [hv] at hkey
        have hv' := isSome_eq_false_iff.mp hkey.symm
        simp only [leafAt, hv, isNone_iff_eq_none.mp hv', bind_none]
      · rw [hv] at hkey
        obtain ⟨v', hv'⟩ := isSome_iff_exists.mp hkey.symm
        simp only [leafAt, hv, hv', bind_some]
        exact ih key v v' hv hv' path

theorem related_of_leafAt (h : Alike a b) (hleaf : ∀ path, leafAt path a = leafAt path b) :
    Related Eq a b := by
  induction h with
  | leaf left right =>
    have hroot := hleaf []
    simp only [leafAt, left, right] at hroot
    exact .leaf left right (Option.some.inj hroot)
  | node unique unique' keys _ ih =>
    refine .node unique unique' keys fun key v v' hv hv' => ih key v v' hv hv' fun path => ?_
    have hpath := hleaf (key :: path)
    simpa only [leafAt, hv, hv', bind_some] using hpath

theorem asU64_le {j : Json} {n : ℕ} (h : asU64 j = some n) : n ≤ u64Max := by
  unfold asU64 at h
  split at h
  · split_ifs at h with hdigits
    rw [← Option.some.inj h]
    have := hdigits.2.2
    unfold u64Max
    omega
  · cases h

theorem leafAt_le {path : List String} {n : ℕ} (h : leafAt path a = some n) : n ≤ u64Max := by
  induction path generalizing a with
  | nil =>
    cases a with
    | num text => exact asU64_le h
    | _ => cases h
  | cons key path ih =>
    cases a with
    | obj fields =>
      obtain ⟨v, _, hv⟩ := bind_eq_some_iff.mp h
      exact ih hv
    | _ => cases h

theorem total_cons (path : List String) (usage : Json) (rest : List Json) :
    total path (usage :: rest) = (leafAt path usage).getD 0 + total path rest := by
  rw [total, map_cons, sum_cons, total]

end Trees

section Merging

variable {fields current : List (String × Json)}

def mergedAt (existing value : Option Json) : Option Json :=
  match existing, value with
  | some existing, some value => some (mergeUsage existing value)
  | some existing, none => some existing
  | none, value => value

theorem lookup_mergeFields (fields : List (String × Json)) (h : (current.map Prod.fst).Nodup)
    (key : String) :
    (mergeFields fields current).lookup key =
      mergedAt (fields.lookup key) (current.lookup key) := by
  induction current generalizing fields with
  | nil =>
    rw [mergeFields, lookup_nil]
    cases fields.lookup key <;> rfl
  | cons field rest ih =>
    obtain ⟨k, value⟩ := field
    rw [map_cons, nodup_cons] at h
    have habsent : rest.lookup k = none := by
      rw [List.lookup_eq_none_iff]
      intro p hp
      rw [bne_iff_ne]
      intro heq
      exact h.1 (mem_map.mpr ⟨p, hp, heq.symm⟩)
    rw [mergeFields, lookup_cons]
    rcases hk : fields.lookup k with _ | existing
    · dsimp only
      rw [ih _ h.2, lookup_append]
      by_cases hkey : key = k
      · subst hkey
        rw [hk, habsent, beq_self_eq_true]
        simp [mergedAt]
      · rw [beq_false_of_ne hkey]
        simp [lookup_cons, beq_false_of_ne hkey]
    · dsimp only
      rw [ih _ h.2]
      by_cases hkey : key = k
      · subst hkey
        rw [Json.lookup_setField, habsent, hk, beq_self_eq_true]
        rfl
      · rw [Json.lookup_setField_of_ne hkey, beq_false_of_ne hkey]

theorem nodup_mergeFields (h : (fields.map Prod.fst).Nodup)
    (hkeys : ∀ key, (current.lookup key).isSome = true → (fields.lookup key).isSome = true) :
    ((mergeFields fields current).map Prod.fst).Nodup := by
  induction current generalizing fields with
  | nil => exact h
  | cons field rest ih =>
    obtain ⟨k, value⟩ := field
    rw [mergeFields]
    obtain ⟨existing, hk⟩ := isSome_iff_exists.mp (hkeys k (by simp))
    rw [hk]
    refine ih (Json.nodup_setField h) fun key hkey => ?_
    by_cases heq : key = k
    · rw [heq, Json.lookup_setField]
      rfl
    · rw [Json.lookup_setField_of_ne heq]
      apply hkeys
      rw [lookup_cons, beq_false_of_ne heq]
      exact hkey

variable {acc usage : Json}

/-- One merge keeps the structure and adds the counts, saturating. -/
theorem mergeUsage_alike (h : Alike acc usage) :
    Alike (mergeUsage acc usage) usage ∧
      ∀ path m n, leafAt path acc = some m → leafAt path usage = some n →
        leafAt path (mergeUsage acc usage) = some (satAdd u64Max m n) := by
  induction h with
  | @leaf s t m n left right =>
    have hsum : asU64 (.ofNat (satAdd u64Max m n)) = some (satAdd u64Max m n) := by
      apply asU64_ofNat
      unfold satAdd u64Max
      omega
    have hmerge : mergeUsage (.num s) (.num t) = .ofNat (satAdd u64Max m n) := by
      simp only [mergeUsage, left, right]
    rw [hmerge]
    refine ⟨.leaf hsum right trivial, fun path m' n' hm hn => ?_⟩
    cases path with
    | nil =>
      rw [leafAt, left] at hm
      rw [leafAt, right] at hn
      rw [← Option.some.inj hm, ← Option.some.inj hn]
      exact hsum
    | cons key path => cases hm
  | @node fields current unique unique' keys _ ih =>
    have hlookup := fun key => lookup_mergeFields fields unique' key
    have hmerge : mergeUsage (.obj fields) (.obj current) = .obj (mergeFields fields current) := by
      simp only [mergeUsage]
    rw [hmerge]
    constructor
    · refine .node (nodup_mergeFields unique fun key hkey => (keys key).trans hkey) unique'
        (fun key => ?_) fun key v v' hv hv' => ?_
      · have hkey := keys key
        rw [hlookup]
        rcases hf : fields.lookup key with _ | e <;> rcases hc : current.lookup key with _ | u <;>
          simp [hf, hc, mergedAt] at hkey ⊢
      · obtain ⟨e, he⟩ := isSome_iff_exists.mp ((keys key).trans (by rw [hv']; rfl))
        rw [hlookup, he, hv'] at hv
        rw [← Option.some.inj hv]
        exact (ih key e v' he hv').1
    · intro path m n hm hn
      cases path with
      | nil => cases hm
      | cons key path =>
        rw [leafAt] at hm hn ⊢
        obtain ⟨e, he, hm⟩ := bind_eq_some_iff.mp hm
        obtain ⟨v, hv, hn⟩ := bind_eq_some_iff.mp hn
        rw [hlookup, he, hv]
        exact (ih key e v he hv).2 path m n hm hn

theorem mergeUsage_null (h : Alike usage usage) : mergeUsage .null usage = usage := by
  cases h with
  | leaf => rfl
  | node => simp only [mergeUsage]

/-- Merging the rest into the first: the structure stays, the counts are added up. -/
theorem foldl_mergeUsage {rest : List Json} (h : ∀ usage ∈ rest, Alike acc usage)
    (hacc : Alike acc acc) :
    Alike (rest.foldl mergeUsage acc) acc ∧
      ∀ path m, leafAt path acc = some m →
        leafAt path (rest.foldl mergeUsage acc) = some (min (m + total path rest) u64Max) := by
  induction rest generalizing acc with
  | nil =>
    refine ⟨hacc, fun path m hm => ?_⟩
    have hle := leafAt_le hm
    rw [foldl_nil, hm, total, map_nil, sum_nil, Nat.add_zero, Nat.min_eq_left hle]
  | cons usage rest ih =>
    obtain ⟨husage, hrest⟩ := List.forall_mem_cons.mp h
    obtain ⟨hmerged, hleaf⟩ := mergeUsage_alike husage
    have hback := hmerged.trans husage.symm
    obtain ⟨hfold, hsum⟩ := ih (fun other hother => hback.trans (hrest other hother))
      (hback.trans hback.symm)
    refine ⟨hfold.trans hback, fun path m hm => ?_⟩
    have hsome := husage.leafAt_isSome path
    rw [hm] at hsome
    obtain ⟨n, hn⟩ := isSome_iff_exists.mp hsome.symm
    rw [foldl_cons, hsum path _ (hleaf path m n hm hn)]
    rw [total_cons, hn, getD_some, satAdd]
    congr 1
    omega

end Merging

section Orders

variable {usages order : List Json}

theorem foldUsage_leafAt (h : ∀ u ∈ usages, ∀ v ∈ usages, Alike u v) :
    (∀ u ∈ usages, Alike (foldUsage usages) u) ∧
      ∀ path, ∀ u ∈ usages, (leafAt path u).isSome = true →
        leafAt path (foldUsage usages) = some (min (total path usages) u64Max) := by
  cases usages with
  | nil => exact ⟨fun _ hu => absurd hu not_mem_nil, fun _ _ hu => absurd hu not_mem_nil⟩
  | cons first rest =>
    have hfirst := h first mem_cons_self
    have hself := hfirst first mem_cons_self
    obtain ⟨halike, hleaf⟩ := foldl_mergeUsage
      (fun usage husage => hfirst usage (mem_cons_of_mem _ husage)) hself
    have hfold : foldUsage (first :: rest) = rest.foldl mergeUsage first := by
      rw [foldUsage, foldl_cons, mergeUsage_null hself]
    rw [hfold]
    refine ⟨fun u hu => halike.trans (hfirst u hu), fun path u hu hsome => ?_⟩
    rw [← (hfirst u hu).leafAt_isSome] at hsome
    obtain ⟨m, hm⟩ := isSome_iff_exists.mp hsome
    rw [hleaf path m hm, total_cons, hm, getD_some]

theorem total_perm (path : List String) (h : order.Perm usages) :
    total path order = total path usages :=
  (h.map _).sum_eq

/-- Usage of one structure adds up to the same object in any order, and the count at every leaf is
the sum of the counts there, or the largest `u64` where the sum is larger. -/
theorem merged_usage_is_sum (h : ∀ u ∈ usages, ∀ v ∈ usages, Alike u v)
    (hperm : order.Perm usages) :
    SameObject (foldUsage order) (foldUsage usages) ∧
      (∀ u ∈ usages, Alike (foldUsage order) u) ∧
      ∀ path, ∀ u ∈ usages, (leafAt path u).isSome = true →
        leafAt path (foldUsage order) = some (min u64Max (total path usages)) := by
  have horder : ∀ u ∈ order, ∀ v ∈ order, Alike u v := fun u hu v hv =>
    h u (hperm.mem_iff.mp hu) v (hperm.mem_iff.mp hv)
  obtain ⟨halike, hleaf⟩ := foldUsage_leafAt h
  obtain ⟨halike', hleaf'⟩ := foldUsage_leafAt horder
  refine ⟨?_, fun u hu => halike' u (hperm.mem_iff.mpr hu), fun path u hu hsome => ?_⟩
  · rcases hcases : usages with _ | ⟨first, rest⟩
    · rw [hcases] at hperm
      rw [hperm.eq_nil]
      exact .inl rfl
    · have hmem : first ∈ usages := hcases ▸ mem_cons_self
      have hmem' := hperm.mem_iff.mpr hmem
      rw [← hcases]
      refine .inr (related_of_leafAt ((halike' first hmem').trans (halike first hmem).symm)
        fun path => ?_)
      by_cases hsome : (leafAt path first).isSome = true
      · rw [hleaf path first hmem hsome, hleaf' path first hmem' hsome, total_perm path hperm]
      · have hnone := not_isSome_iff_eq_none.mp fun hs =>
          hsome ((halike first hmem).leafAt_isSome path ▸ hs)
        have hnone' := not_isSome_iff_eq_none.mp fun hs =>
          hsome ((halike' first hmem').leafAt_isSome path ▸ hs)
        rw [hnone, hnone']
  · rw [hleaf' path u (hperm.mem_iff.mpr hu) hsome, total_perm path hperm, Nat.min_comm]

theorem alike_single {key : String} {v v' : Json} (h : Alike v v') :
    Alike (.obj [(key, v)]) (.obj [(key, v')]) := by
  refine .node (nodup_singleton _) (nodup_singleton _) (fun other => ?_)
    fun other u u' hu hu' => ?_
  · simp only [lookup_cons, lookup_nil]
    cases other == key <;> rfl
  · simp only [lookup_cons, lookup_nil] at hu hu'
    cases hkey : other == key with
    | true =>
      rw [hkey] at hu hu'
      rwa [← Option.some.inj hu, ← Option.some.inj hu']
    | false =>
      rw [hkey] at hu
      cases hu

def cachedTokens (count : String) : Json :=
  .obj [("input_tokens_details", .obj [("cached_tokens", .num count)])]

/-- Three counts whose sum is past the largest `u64`. -/
theorem cachedTokens_saturate :
    leafAt ["input_tokens_details", "cached_tokens"] (foldUsage
      [cachedTokens "5", cachedTokens "18446744073709551614", cachedTokens "7"]) =
      some (min u64Max (total ["input_tokens_details", "cached_tokens"]
        [cachedTokens "18446744073709551614", cachedTokens "5", cachedTokens "7"])) := by
  have halike : ∀ s ∈ ["18446744073709551614", "5", "7"], ∀ t ∈ ["18446744073709551614", "5", "7"],
      Alike (cachedTokens s) (cachedTokens t) := by
    intro s hs t ht
    have hread : ∀ text ∈ ["18446744073709551614", "5", "7"],
        (asU64 (.num text)).isSome = true := by decide +kernel
    obtain ⟨m, hm⟩ := isSome_iff_exists.mp (hread s hs)
    obtain ⟨n, hn⟩ := isSome_iff_exists.mp (hread t ht)
    exact alike_single (alike_single (.leaf hm hn trivial))
  have hall : ∀ u ∈ ["18446744073709551614", "5", "7"].map cachedTokens,
      ∀ v ∈ ["18446744073709551614", "5", "7"].map cachedTokens, Alike u v := by
    intro u hu v hv
    obtain ⟨s, hs, rfl⟩ := mem_map.mp hu
    obtain ⟨t, ht, rfl⟩ := mem_map.mp hv
    exact halike s hs t ht
  exact (merged_usage_is_sum hall (List.Perm.swap _ _ _)).2.2 _ _ mem_cons_self
    (by decide +kernel)

end Orders

end UsageMerging
