import Mathlib.Data.List.Basic

/-! # Names with at most one owner

Declarations come one after another. One may own its name, with a recipe, and then nobody else has
that name; others may share a name without owning it, or have none. -/
namespace NameRegistries

open List

structure Entry (κ ρ δ : Type*) where
  declaration : δ
  name : Option κ
  recipe : Option ρ

variable {κ ρ δ : Type*}

def Compatible (a b : Entry κ ρ δ) : Prop :=
  ∀ n, a.name = some n → b.name = some n → a.recipe = none ∧ b.recipe = none

def Named (entries : List (Entry κ ρ δ)) (n : κ) : Prop := ∃ e ∈ entries, e.name = some n

variable [DecidableEq κ]

def owner (entries : List (Entry κ ρ δ)) (n : κ) : Option ρ :=
  entries.findSome? fun e => if e.name = some n then e.recipe else none

variable {entries : List (Entry κ ρ δ)} {e : Entry κ ρ δ} {n : κ} {r : ρ}

theorem owner_eq_some (h : owner entries n = some r) :
    ∃ e ∈ entries, e.name = some n ∧ e.recipe = some r := by
  obtain ⟨e, he, hr⟩ := exists_of_findSome?_eq_some h
  split at hr
  · rename_i hn
    exact ⟨e, he, hn, hr⟩
  · cases hr

theorem owner_append (entries later : List (Entry κ ρ δ)) (n : κ) :
    owner (entries ++ later) n = (owner entries n).or (owner later n) :=
  findSome?_append

theorem owner_singleton (e : Entry κ ρ δ) (n : κ) :
    owner [e] n = if e.name = some n then e.recipe else none := by
  rw [owner, findSome?_singleton]

theorem owner_eq_none_of_not_named (h : ¬ Named entries n) : owner entries n = none := by
  rcases hr : owner entries n with _ | r
  · rfl
  · obtain ⟨e, he, hn, -⟩ := owner_eq_some hr
    exact absurd ⟨e, he, hn⟩ h

theorem owner_of_mem (h : entries.Pairwise Compatible) (he : e ∈ entries)
    (hn : e.name = some n) : owner entries n = e.recipe := by
  induction entries with
  | nil => cases he
  | cons first rest ih =>
    obtain ⟨hfirst, hrest⟩ := pairwise_cons.mp h
    rw [← singleton_append, owner_append, owner_singleton]
    rcases mem_cons.mp he with rfl | he
    · rw [if_pos hn]
      rcases hr : e.recipe with _ | r
      · -- nobody after one that shares the name owns it
        rcases howner : owner rest n with _ | r
        · rfl
        · obtain ⟨e', he', hn', hr'⟩ := owner_eq_some howner
          rw [(hfirst e' he' n hn hn').2] at hr'
          cases hr'
      · rfl
    · rw [ih hrest he]
      split
      · rename_i hname
        rw [(hfirst e he n hname hn).1, Option.none_or]
      · exact Option.none_or

section Admission

omit [DecidableEq κ] in
theorem pairwise_concat {entries : List (Entry κ ρ δ)} (h : entries.Pairwise Compatible)
    (he : ∀ a ∈ entries, Compatible a e) : (entries ++ [e]).Pairwise Compatible := by
  refine pairwise_append.mpr ⟨h, pairwise_singleton _ _, fun a ha b hb => ?_⟩
  rw [mem_singleton.mp hb]
  exact he a ha

omit [DecidableEq κ] in
theorem compatible_of_not_named (hn : e.name = some n) (h : ¬ Named entries n) :
    ∀ a ∈ entries, Compatible a e := by
  intro a ha n' hname hname'
  rw [hn] at hname'
  cases hname'
  exact absurd ⟨a, ha, hname⟩ h

theorem compatible_of_not_owned (hpair : entries.Pairwise Compatible) (hn : e.name = some n)
    (hr : e.recipe = none) (h : owner entries n = none) : ∀ a ∈ entries, Compatible a e := by
  intro a ha n' hname hname'
  rw [hn] at hname'
  cases hname'
  rw [owner_of_mem hpair ha hname] at h
  exact ⟨h, hr⟩

omit [DecidableEq κ] in
theorem compatible_of_unnamed (hn : e.name = none) : ∀ a ∈ entries, Compatible a e := by
  intro a _ n _ hname
  rw [hn] at hname
  cases hname

end Admission

end NameRegistries
