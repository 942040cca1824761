import Mathlib.Data.List.AList
import Mathlib.Data.List.Perm.Subperm
import Mathlib.Algebra.BigOperators.Group.List.Basic
import Mathlib.Algebra.GroupWithZero.Nat
import Mathlib.Algebra.Order.Group.Nat

/-! # Finite maps with sums and bulk removal

Hash maps are association lists without repeated keys. Mathlib supplies lookup,
insertion and removal; here are the sum of a weight over the values and the removal
of a list of keys, which is how expired entries leave a map. -/
namespace KeyedMaps

open List

abbrev KeyedMap (κ α : Type*) := AList (fun _ : κ => α)

variable {κ α : Type*} [DecidableEq κ] {m : KeyedMap κ α} {k : κ} {v : α}

def sumBy (f : α → ℕ) (m : KeyedMap κ α) : ℕ := (m.entries.map fun e => f e.2).sum

omit [DecidableEq κ] in
@[simp] theorem sumBy_empty (f : α → ℕ) : sumBy f (∅ : KeyedMap κ α) = 0 := rfl

theorem lookup_eq_none_iff : m.lookup k = none ↔ k ∉ m := by
  rw [← AList.lookup_isSome]
  cases m.lookup k <;> simp

theorem mem_of_lookup (h : m.lookup k = some v) : k ∈ m :=
  AList.lookup_isSome.mp (by rw [h]; rfl)

theorem erase_of_not_mem (h : k ∉ m) : m.erase k = m := by
  apply AList.ext
  exact kerase_of_notMem_keys h

theorem entries_perm_erase (h : m.lookup k = some v) :
    m.entries.Perm (⟨k, v⟩ :: (m.erase k).entries) := by
  obtain ⟨b, l₁, l₂, hn, hl, he⟩ := exists_of_kerase (mem_of_lookup h)
  have hb : b = v := by
    have hm : (⟨k, b⟩ : Sigma fun _ : κ => α) ∈ m.entries := by rw [hl]; simp
    have hlookup := AList.mem_lookup_iff.mpr hm
    rw [h] at hlookup
    exact (Option.mem_some_iff.mp hlookup).symm
  have hs : (m.erase k).entries = l₁ ++ l₂ := he
  rw [hs, hl, hb]
  exact perm_middle

theorem sumBy_erase (f : α → ℕ) (h : m.lookup k = some v) :
    sumBy f (m.erase k) + f v = sumBy f m := by
  have := ((entries_perm_erase h).map fun e => f e.2).sum_eq
  simp only [sumBy, this, map_cons, sum_cons]
  omega

theorem sumBy_insert (f : α → ℕ) (m : KeyedMap κ α) (k : κ) (v : α) :
    sumBy f (m.insert k v) = f v + sumBy f (m.erase k) := by
  unfold sumBy
  rw [AList.entries_insert, map_cons, sum_cons]
  rfl

theorem sumBy_erase_le (f : α → ℕ) (m : KeyedMap κ α) (k : κ) :
    sumBy f (m.erase k) ≤ sumBy f m := by
  cases h : m.lookup k with
  | none => rw [erase_of_not_mem (lookup_eq_none_iff.mp h)]
  | some v =>
    have := sumBy_erase f h
    omega

def eraseAll (ks : List κ) (m : KeyedMap κ α) : KeyedMap κ α :=
  ks.foldl (fun m k => m.erase k) m

@[simp] theorem eraseAll_nil (m : KeyedMap κ α) : eraseAll [] m = m := rfl

@[simp] theorem eraseAll_cons (k : κ) (ks : List κ) (m : KeyedMap κ α) :
    eraseAll (k :: ks) m = eraseAll ks (m.erase k) := rfl

theorem lookup_eraseAll (ks : List κ) (m : KeyedMap κ α) (k : κ) :
    (eraseAll ks m).lookup k = if k ∈ ks then none else m.lookup k := by
  induction ks generalizing m with
  | nil => simp
  | cons j ks ih =>
    rw [eraseAll_cons, ih]
    by_cases hk : k ∈ ks
    · simp [hk]
    · by_cases hj : k = j
      · subst hj; simp [hk]
      · simp [hk, hj, AList.lookup_erase_ne hj]

theorem keys_perm_eraseAll {ks : List κ} (hn : ks.Nodup) (hm : ∀ k ∈ ks, k ∈ m) :
    m.keys.Perm (ks ++ (eraseAll ks m).keys) := by
  induction ks generalizing m with
  | nil => exact List.Perm.refl _
  | cons k ks ih =>
    have hk : k ∈ m.keys := AList.mem_keys.mp (hm k (by simp))
    rw [nodup_cons] at hn
    have hrest : ∀ j ∈ ks, j ∈ m.erase k := by
      intro j hj
      rw [AList.mem_erase]
      exact ⟨fun he => hn.1 (he ▸ hj), hm j (by simp [hj])⟩
    have hp := ih hn.2 hrest
    rw [AList.keys_erase] at hp
    exact (perm_cons_erase hk).trans (hp.cons k)

def collect {β : Type*} (f : α → List β) (m : KeyedMap κ α) : List β :=
  m.entries.flatMap fun e => f e.2

theorem collect_erase {β : Type*} (f : α → List β) (h : m.lookup k = some v) :
    (collect f m).Perm (f v ++ collect f (m.erase k)) :=
  (entries_perm_erase h).flatMap_right _

theorem collect_insert {β : Type*} (f : α → List β) (m : KeyedMap κ α) (k : κ) (v : α) :
    collect f (m.insert k v) = f v ++ collect f (m.erase k) := by
  simp only [collect, AList.entries_insert, flatMap_cons]
  rfl

/-- Replacing one value changes the collection by what the value itself gains and loses. -/
theorem collect_replace {β : Type*} {f : α → List β} {v' : α} {gained lost : List β}
    (h : m.lookup k = some v) (hp : (f v ++ gained).Perm (f v' ++ lost)) :
    (collect f m ++ gained).Perm (collect f (m.insert k v') ++ lost) := by
  have hold := (collect_erase f h).append_right gained
  rw [collect_insert]
  have hswap : (f v ++ collect f (m.erase k) ++ gained).Perm
      (f v ++ gained ++ collect f (m.erase k)) := by
    rw [append_assoc, append_assoc]
    exact perm_append_comm.append_left _
  have hswap' : (f v' ++ lost ++ collect f (m.erase k)).Perm
      (f v' ++ collect f (m.erase k) ++ lost) := by
    rw [append_assoc, append_assoc]
    exact perm_append_comm.append_left _
  exact ((hold.trans hswap).trans (hp.append_right _)).trans hswap'

theorem mem_collect {β : Type*} {f : α → List β} {b : β} :
    b ∈ collect f m ↔ ∃ k v, m.lookup k = some v ∧ b ∈ f v := by
  simp only [collect, mem_flatMap, Sigma.exists]
  constructor
  · rintro ⟨k, v, hm, hb⟩
    exact ⟨k, v, Option.mem_def.mp (AList.mem_lookup_iff.mpr hm), hb⟩
  · rintro ⟨k, v, hk, hb⟩
    exact ⟨k, v, AList.mem_lookup_iff.mp hk, hb⟩

theorem keys_length_insert (m : KeyedMap κ α) (v : α) (h : k ∉ m) :
    (m.insert k v).keys.length = m.keys.length + 1 := by
  rw [AList.keys_insert, length_cons, List.erase_of_not_mem]
  exact fun hk => h (AList.mem_keys.mpr hk)

theorem keys_length_erase (h : k ∈ m) : (m.erase k).keys.length + 1 = m.keys.length := by
  rw [AList.keys_erase, length_erase_of_mem (AList.mem_keys.mp h)]
  have := length_pos_of_mem (AList.mem_keys.mp h)
  omega

def retain (keep : α → Bool) (m : KeyedMap κ α) : KeyedMap κ α where
  entries := m.entries.filter fun e => keep e.2
  nodupKeys := m.nodupKeys.sublist filter_sublist

theorem lookup_retain (keep : α → Bool) (m : KeyedMap κ α) (k : κ) :
    (retain keep m).lookup k = (m.lookup k).filter keep := by
  have hmem : ∀ v, (retain keep m).lookup k = some v ↔ m.lookup k = some v ∧ keep v = true := by
    intro v
    have hentries : (⟨k, v⟩ : Sigma fun _ : κ => α) ∈ (retain keep m).entries ↔
        ⟨k, v⟩ ∈ m.entries ∧ keep v = true := mem_filter
    rw [← Option.mem_def, AList.mem_lookup_iff, hentries, ← AList.mem_lookup_iff, Option.mem_def]
  apply Option.ext
  intro v
  rw [hmem v, Option.filter_eq_some_iff]

omit [DecidableEq κ] in
theorem keys_length_retain (keep : α → Bool) (m : KeyedMap κ α) :
    (retain keep m).keys.length ≤ m.keys.length := by
  simp only [AList.keys, List.keys, length_map]
  exact length_filter_le _ _

end KeyedMaps
