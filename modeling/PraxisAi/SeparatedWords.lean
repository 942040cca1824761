import Mathlib.Data.List.Infix

/-! # Words joined by a doubled separator

A word is plain if it neither holds the doubled separator nor touches one with a separator of its
own. Plain words are read back from their join, and no three separators stand in a row there. -/
namespace SeparatedWords

open List

variable {α : Type*} {s : α} {u v w u' v' : List α}

structure Plain (s : α) (w : List α) : Prop where
  apart : ¬[s, s] <:+: w
  head : w.head? ≠ some s
  last : w.getLast? ≠ some s

def join (s : α) (u v : List α) : List α := u ++ s :: s :: v

def NoTriple (s : α) (w : List α) : Prop := ¬[s, s, s] <:+: w

theorem Plain.noTriple (h : Plain s w) : NoTriple s w := by
  rintro ⟨front, back, hw⟩
  apply h.apart
  refine ⟨front, s :: back, ?_⟩
  rw [← hw]
  simp

/-- A plain word does not reach into the separator that follows it in another reading. -/
theorem Plain.eq_nil_of_append {c : List α} (h : Plain s (u ++ c))
    (hc : s :: s :: v = c ++ s :: s :: v') : c = [] := by
  cases c with
  | nil => rfl
  | cons x c =>
    obtain ⟨rfl, htail⟩ := List.cons.inj hc
    cases c with
    | nil => exact absurd (by simp) h.last
    | cons y c =>
      obtain ⟨rfl, -⟩ := List.cons.inj htail
      exact absurd ⟨u, c, by simp⟩ h.apart

theorem join_injective (hu : Plain s u) (hu' : Plain s u') (h : join s u v = join s u' v') :
    u = u' ∧ v = v' := by
  have hsame : u = u' := by
    rcases append_eq_append_iff.mp h with ⟨c, rfl, hc⟩ | ⟨c, rfl, hc⟩
    · rw [hu'.eq_nil_of_append hc, append_nil]
    · rw [hu.eq_nil_of_append hc, append_nil]
  subst hsame
  have htail := append_cancel_left h
  exact ⟨rfl, (List.cons.inj (List.cons.inj htail).2).2⟩

theorem noTriple_cons_cons (hhead : v.head? ≠ some s) (hv : NoTriple s v) :
    NoTriple s (s :: s :: v) := by
  intro h
  rcases infix_cons_iff.mp h with h | h
  · obtain ⟨rest, hrest⟩ := h
    have htail := (List.cons.inj (List.cons.inj hrest).2).2
    exact hhead (by rw [← htail]; rfl)
  rcases infix_cons_iff.mp h with h | h
  · obtain ⟨rest, hrest⟩ := h
    have htail := (List.cons.inj hrest).2
    exact hhead (by rw [← htail]; rfl)
  · exact hv h

theorem noTriple_join (hapart : ¬[s, s] <:+: u) (hlast : u.getLast? ≠ some s)
    (hhead : v.head? ≠ some s) (hv : NoTriple s v) : NoTriple s (join s u v) := by
  induction u with
  | nil => exact noTriple_cons_cons hhead hv
  | cons x u ih =>
    intro h
    have hlast' : u.getLast? ≠ some s := by
      cases u with
      | nil => simp
      | cons y u => rwa [getLast?_cons_cons] at hlast
    rcases infix_cons_iff.mp h with h | h
    · obtain ⟨rest, hrest⟩ := h
      obtain ⟨rfl, htail⟩ := List.cons.inj hrest
      cases u with
      | nil => exact hlast rfl
      | cons y u =>
        obtain ⟨rfl, -⟩ := List.cons.inj htail
        exact hapart ⟨[], u, rfl⟩
    · exact ih (fun hinfix => hapart (infix_cons hinfix)) hlast' h

/-- Three plain words, the middle one not empty. -/
theorem noTriple_join_join (hu : Plain s u) (hv : Plain s v) (hne : v ≠ []) (hw : Plain s w) :
    NoTriple s (join s u (join s v w)) := by
  apply noTriple_join hu.apart hu.last
  · cases v with
    | nil => exact absurd rfl hne
    | cons x v => exact hv.head
  · exact noTriple_join hv.apart hv.last hw.head hw.noTriple

end SeparatedWords
