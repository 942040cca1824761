import Mathlib.Data.List.GetD
import Mathlib.Data.List.Nodup

/-! # Base64 without padding

The alphabet that is safe in addresses, three bytes in four characters and no mark for what is
missing at the end. Different bytes have different texts. -/
namespace Base64Text

open List

def alphabet : List Char :=
  "ABCDEFGHIJKLMNOPQRSTUVWXYZabcdefghijklmnopqrstuvwxyz0123456789-_".toList

theorem length_alphabet : alphabet.length = 64 := by decide +kernel

def sextet (n : ℕ) : Char := alphabet.getD (n % 64) 'A'

def encode : List UInt8 → List Char
  | a :: b :: c :: rest =>
    sextet (a.toNat / 4) :: sextet (a.toNat % 4 * 16 + b.toNat / 16) ::
      sextet (b.toNat % 16 * 4 + c.toNat / 64) :: sextet (c.toNat % 64) :: encode rest
  | [a, b] =>
    [sextet (a.toNat / 4), sextet (a.toNat % 4 * 16 + b.toNat / 16), sextet (b.toNat % 16 * 4)]
  | [a] => [sextet (a.toNat / 4), sextet (a.toNat % 4 * 16)]
  | [] => []

theorem sextet_injective {n m : ℕ} (hn : n < 64) (hm : m < 64) (h : sextet n = sextet m) :
    n = m := by
  have hnodup : alphabet.Nodup := by decide +kernel
  rw [sextet, sextet, Nat.mod_eq_of_lt hn, Nat.mod_eq_of_lt hm,
    getD_eq_getElem _ _ (length_alphabet ▸ hn), getD_eq_getElem _ _ (length_alphabet ▸ hm)] at h
  exact hnodup.getElem_inj_iff.mp h

theorem sextet_mem (n : ℕ) : sextet n ∈ alphabet := by
  have hlt : n % 64 < alphabet.length := length_alphabet ▸ Nat.mod_lt n (by decide)
  rw [sextet, getD_eq_getElem _ _ hlt]
  exact getElem_mem hlt

theorem mem_alphabet {bytes : List UInt8} {c : Char} (h : c ∈ encode bytes) : c ∈ alphabet := by
  induction bytes using encode.induct with
  | case1 a b d rest ih =>
    rw [encode] at h
    simp only [mem_cons] at h
    rcases h with rfl | rfl | rfl | rfl | h
    · exact sextet_mem _
    · exact sextet_mem _
    · exact sextet_mem _
    · exact sextet_mem _
    · exact ih h
  | case2 a b =>
    rw [encode] at h
    simp only [mem_cons, not_mem_nil, or_false] at h
    rcases h with rfl | rfl | rfl <;> exact sextet_mem _
  | case3 a =>
    rw [encode] at h
    simp only [mem_cons, not_mem_nil, or_false] at h
    rcases h with rfl | rfl <;> exact sextet_mem _
  | case4 => cases h

variable {a b c a' b' c' : UInt8}

theorem first_of_sextets {low low' : ℕ} (hlow : low < 16) (hlow' : low' < 16)
    (h₁ : sextet (a.toNat / 4) = sextet (a'.toNat / 4))
    (h₂ : sextet (a.toNat % 4 * 16 + low) = sextet (a'.toNat % 4 * 16 + low')) :
    a = a' ∧ low = low' := by
  have ha := a.toNat_lt
  have ha' := a'.toNat_lt
  have hhigh := sextet_injective (by omega) (by omega) h₁
  have hrest := sextet_injective (by omega) (by omega) h₂
  exact ⟨UInt8.toNat_inj.mp (by omega), by omega⟩

theorem second_of_sextets {low low' : ℕ} (hlow : low < 4) (hlow' : low' < 4)
    (hhigh : b.toNat / 16 = b'.toNat / 16)
    (h : sextet (b.toNat % 16 * 4 + low) = sextet (b'.toNat % 16 * 4 + low')) :
    b = b' ∧ low = low' := by
  have hrest := sextet_injective (by omega) (by omega) h
  exact ⟨UInt8.toNat_inj.mp (by omega), by omega⟩

theorem encode_injective : Function.Injective encode := by
  intro x y h
  -- texts of another length at the end cannot be equal, so both lists have the same shape
  induction x using encode.induct generalizing y with
  | case1 a b c rest ih =>
    rcases y with _ | ⟨a', _ | ⟨b', _ | ⟨c', rest'⟩⟩⟩
    · cases h
    · simp [encode] at h
    · simp [encode] at h
    · simp only [encode, List.cons.injEq] at h
      obtain ⟨h₁, h₂, h₃, h₄, hrest⟩ := h
      have hb := b.toNat_lt
      have hb' := b'.toNat_lt
      have hc := c.toNat_lt
      have hc' := c'.toNat_lt
      obtain ⟨rfl, hbHigh⟩ := first_of_sextets (by omega) (by omega) h₁ h₂
      obtain ⟨rfl, hcHigh⟩ := second_of_sextets (by omega) (by omega) hbHigh h₃
      have hcLow := sextet_injective (by omega) (by omega) h₄
      have hcc : c = c' := UInt8.toNat_inj.mp (by omega)
      rw [hcc, ih hrest]
  | case2 a b =>
    rcases y with _ | ⟨a', _ | ⟨b', _ | ⟨c', rest'⟩⟩⟩
    · cases h
    · simp [encode] at h
    · simp only [encode, List.cons.injEq, and_true] at h
      have hb := b.toNat_lt
      have hb' := b'.toNat_lt
      obtain ⟨rfl, hbHigh⟩ := first_of_sextets (by omega) (by omega) h.1 h.2.1
      obtain ⟨rfl, -⟩ := @second_of_sextets b b' 0 0 (by decide) (by decide) hbHigh h.2.2
      rfl
    · simp [encode] at h
  | case3 a =>
    rcases y with _ | ⟨a', _ | ⟨b', _ | ⟨c', rest'⟩⟩⟩
    · cases h
    · simp only [encode, List.cons.injEq, and_true] at h
      obtain ⟨rfl, -⟩ := @first_of_sextets a a' 0 0 (by decide) (by decide) h.1 h.2
      rfl
    · simp [encode] at h
    · simp [encode] at h
  | case4 =>
    rcases y with _ | ⟨a', _ | ⟨b', _ | ⟨c', rest'⟩⟩⟩
    · rfl
    · cases h
    · cases h
    · cases h

end Base64Text
