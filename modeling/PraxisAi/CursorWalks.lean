import Mathlib.Data.List.Basic
import Mathlib.Tactic.Linarith

/-! # Listings read page by page

A listing of `n` entries answers a call with the window of `width` positions at which the
call's cursor starts, and names the cursor of the next call while entries remain behind the
window. A reader who follows the cursors sees every position once exactly when each cursor
handed out at the end of a full page is read back as that end. -/
namespace CursorWalks

open List

variable {κ ρ ε : Type*}

/-- The calls of a reader who starts with a cursor and stops at the first page without one. -/
inductive Walk (fetch : Option κ → Except ε ρ) (next : ρ → Option κ) :
    Option κ → List (Option κ × ρ) → Prop
  | last {cursor : Option κ} {page : ρ} (hpage : fetch cursor = .ok page)
      (hnext : next page = none) : Walk fetch next cursor [(cursor, page)]
  | more {cursor : Option κ} {page : ρ} {following : κ} {calls : List (Option κ × ρ)}
      (hpage : fetch cursor = .ok page) (hnext : next page = some following)
      (hrest : Walk fetch next (some following) calls) :
      Walk fetch next cursor ((cursor, page) :: calls)

def window (n width start : ℕ) : List ℕ := ((List.range n).drop start).take width

def covered (n width : ℕ) (start : Option κ → Option ℕ) (cursor : Option κ) : List ℕ :=
  (start cursor).elim [] (window n width)

/-- What a listing does with cursors: `start` reads one, `cursorAt` writes the one handed out
at the end of a page. -/
structure Listing (fetch : Option κ → Except ε ρ) (next : ρ → Option κ) where
  length : ℕ
  width : ℕ
  start : Option κ → Option ℕ
  cursorAt : ℕ → κ
  width_pos : 0 < width
  start_none : start none = some 0
  start_of_fetch : ∀ {cursor page}, fetch cursor = .ok page → ∃ o, start cursor = some o
  fetch_of_start : ∀ {cursor o}, start cursor = some o → ∃ page, fetch cursor = .ok page
  next_of_fetch : ∀ {cursor page o}, fetch cursor = .ok page → start cursor = some o →
    next page = if o + width < length then some (cursorAt (o + width)) else none

section Windows

variable {n width start : ℕ}

theorem window_append (n width start : ℕ) :
    window n width start ++ (List.range n).drop (start + width) = (List.range n).drop start := by
  rw [window, ← drop_drop]
  exact take_append_drop width _

theorem window_eq_drop (h : n ≤ start + width) :
    window n width start = (List.range n).drop start := by
  apply take_of_length_le
  simp only [length_drop, length_range]
  omega

theorem window_eq_nil (h : n ≤ start) : window n width start = [] := by
  rw [window, drop_eq_nil_of_le (by simpa using h), take_nil]

theorem head?_window (hw : 0 < width) (h : start < n) :
    (window n width start).head? = some start := by
  rw [window, head?_take, if_neg (by omega), head?_drop,
    getElem?_eq_getElem (by simpa using h), getElem_range]

theorem map_window {α : Type*} (entries : List α) (width start : ℕ) :
    (window entries.length width start).map (entries[·]?) =
      ((entries.drop start).take width).map some := by
  have hall : (List.range entries.length).map (entries[·]?) = entries.map some := by
    apply ext_getElem (by simp)
    intro i hi hi'
    simp
  rw [window, map_take, map_drop, hall, ← map_drop, ← map_take]

end Windows

variable {fetch : Option κ → Except ε ρ} {next : ρ → Option κ}

theorem Walk.length_pos {cursor : Option κ} {calls : List (Option κ × ρ)}
    (h : Walk fetch next cursor calls) : 0 < calls.length := by
  cases h with
  | last _ _ => exact Nat.one_pos
  | more _ _ _ => exact Nat.succ_pos _

/-- Every page but the last names a next cursor. -/
theorem Walk.next_isSome_iff {cursor : Option κ} {calls : List (Option κ × ρ)}
    (h : Walk fetch next cursor calls) (i : ℕ) (hi : i < calls.length) :
    (next (calls.get ⟨i, hi⟩).2).isSome ↔ i + 1 < calls.length := by
  induction h generalizing i with
  | last hpage hnext =>
    obtain rfl : i = 0 := by simpa using hi
    simp [hnext]
  | more hpage hnext hrest ih =>
    cases i with
    | zero => simpa [hnext] using hrest.length_pos
    | succ i => simpa using ih i (by simpa using hi)

theorem Walk.fetch_of_mem {cursor : Option κ} {calls : List (Option κ × ρ)}
    (h : Walk fetch next cursor calls) {call : Option κ × ρ} (hcall : call ∈ calls) :
    fetch call.1 = .ok call.2 := by
  induction h with
  | last hpage _ =>
    obtain rfl := mem_singleton.mp hcall
    exact hpage
  | more hpage _ _ ih =>
    rcases mem_cons.mp hcall with rfl | hcall
    · exact hpage
    · exact ih hcall

namespace Listing

variable (L : Listing fetch next)

/-- The cursor at the end of every full page that is not last is read back as that end. -/
def Faithful : Prop :=
  ∀ k, 0 < k → k * L.width < L.length →
    L.start (some (L.cursorAt (k * L.width))) = some (k * L.width)

def coveredBy (calls : List (Option κ × ρ)) : List ℕ :=
  calls.flatMap fun call => covered L.length L.width L.start call.1

theorem covered_of_start {cursor : Option κ} {o : ℕ} (h : L.start cursor = some o) :
    covered L.length L.width L.start cursor = window L.length L.width o := by
  rw [covered, h]
  rfl

/-- From a page boundary a reader of faithful cursors covers the rest of the positions. -/
theorem exists_walk (hfaithful : L.Faithful) (left : ℕ) : ∀ (k : ℕ) (cursor : Option κ),
    L.length - k * L.width = left → k * L.width ≤ L.length →
    L.start cursor = some (k * L.width) →
    ∃ calls, Walk fetch next cursor calls ∧
      L.coveredBy calls = (List.range L.length).drop (k * L.width) := by
  induction left using Nat.strong_induction_on with
  | _ left ih =>
    intro k cursor hleft hle hstart
    obtain ⟨page, hpage⟩ := L.fetch_of_start hstart
    have hnext := L.next_of_fetch hpage hstart
    have hwidth := L.width_pos
    have hsucc : (k + 1) * L.width = k * L.width + L.width := Nat.succ_mul k L.width
    by_cases hmore : k * L.width + L.width < L.length
    · rw [if_pos hmore, ← hsucc] at hnext
      have hread := hfaithful (k + 1) (Nat.succ_pos k) (by omega)
      obtain ⟨calls, hwalk, hcovered⟩ := ih (L.length - (k + 1) * L.width) (by omega) (k + 1)
        (some (L.cursorAt ((k + 1) * L.width))) rfl (by omega) hread
      refine ⟨(cursor, page) :: calls, .more hpage hnext hwalk, ?_⟩
      calc L.coveredBy ((cursor, page) :: calls)
          = window L.length L.width (k * L.width) ++ L.coveredBy calls := by
            rw [coveredBy, flatMap_cons, L.covered_of_start hstart, coveredBy]
        _ = (List.range L.length).drop (k * L.width) := by
            rw [hcovered, hsucc]
            exact window_append _ _ _
    · rw [if_neg hmore] at hnext
      refine ⟨[(cursor, page)], .last hpage hnext, ?_⟩
      rw [coveredBy, flatMap_cons, L.covered_of_start hstart, flatMap_nil, append_nil]
      exact window_eq_drop (by omega)

/-- A walk that covers the rest of the positions from `o` on has read its next cursor as the
end of its first page. -/
theorem start_next {cursor : Option κ} {calls : List (Option κ × ρ)} {o : ℕ}
    (hwalk : Walk fetch next cursor calls) (ho : L.start cursor = some o) {e : ℕ}
    (he : e < L.length) (hcovered : L.coveredBy calls = (List.range L.length).drop e) : o = e := by
  have hhead : (L.coveredBy calls).head? = some e := by
    rw [hcovered, head?_drop, getElem?_eq_getElem (by simpa using he), getElem_range]
  by_cases hlt : o < L.length
  · have hfirst : (L.coveredBy calls).head? = some o := by
      have hwindow := head?_window L.width_pos hlt
      cases hwalk with
      | last hpage hnext =>
        rw [coveredBy, flatMap_cons, L.covered_of_start ho, head?_append, hwindow]
        rfl
      | more hpage hnext hrest =>
        rw [coveredBy, flatMap_cons, L.covered_of_start ho, head?_append, hwindow]
        rfl
    exact Option.some.inj (hfirst.symm.trans hhead)
  · -- a start behind the end gives an empty page, and no cursor after it
    cases hwalk with
    | last hpage hnext =>
      rw [coveredBy, flatMap_cons, L.covered_of_start ho, window_eq_nil (by omega),
        flatMap_nil] at hhead
      cases hhead
    | more hpage hnext hrest =>
      rw [L.next_of_fetch hpage ho, if_neg (by omega)] at hnext
      cases hnext

theorem faithful_of_walk {cursor : Option κ} {calls : List (Option κ × ρ)}
    (hwalk : Walk fetch next cursor calls) : ∀ k, L.start cursor = some (k * L.width) →
    k * L.width ≤ L.length → L.coveredBy calls = (List.range L.length).drop (k * L.width) →
    ∀ m, k < m → m * L.width < L.length →
      L.start (some (L.cursorAt (m * L.width))) = some (m * L.width) := by
  induction hwalk with
  | last hpage hnext =>
    intro k hstart hle hcovered m hkm hm
    have hmul : (k + 1) * L.width ≤ m * L.width := Nat.mul_le_mul_right _ hkm
    have hsucc : (k + 1) * L.width = k * L.width + L.width := Nat.succ_mul k L.width
    rw [L.next_of_fetch hpage hstart, ← hsucc, if_pos (by omega)] at hnext
    cases hnext
  | @more cursor page following calls hpage hnext hrest ih =>
    intro k hstart hle hcovered m hkm hm
    have hmul : (k + 1) * L.width ≤ m * L.width := Nat.mul_le_mul_right _ hkm
    have hsucc : (k + 1) * L.width = k * L.width + L.width := Nat.succ_mul k L.width
    rw [L.next_of_fetch hpage hstart, ← hsucc, if_pos (by omega)] at hnext
    obtain rfl := Option.some.inj hnext
    have hrestCovered : L.coveredBy calls = (List.range L.length).drop ((k + 1) * L.width) := by
      rw [coveredBy, flatMap_cons, L.covered_of_start hstart,
        ← window_append L.length L.width (k * L.width)] at hcovered
      rw [hsucc]
      exact append_cancel_left hcovered
    have hread : L.start (some (L.cursorAt ((k + 1) * L.width))) = some ((k + 1) * L.width) := by
      obtain ⟨page', hpage'⟩ :
          ∃ page', fetch (some (L.cursorAt ((k + 1) * L.width))) = .ok page' := by
        cases hrest with
        | last h _ => exact ⟨_, h⟩
        | more h _ _ => exact ⟨_, h⟩
      obtain ⟨o, ho⟩ := L.start_of_fetch hpage'
      rw [ho, L.start_next hrest ho (by omega) hrestCovered]
    by_cases hnear : m = k + 1
    · rw [hnear]
      exact hread
    · exact ih (k + 1) hread (by omega) hrestCovered m (by omega) hm

/-- Following the cursors covers every position once exactly when the cursors are faithful. -/
theorem covers_iff_faithful :
    (∃ calls, Walk fetch next none calls ∧ L.coveredBy calls = List.range L.length) ↔
      L.Faithful := by
  constructor
  · rintro ⟨calls, hwalk, hcovered⟩ k hk hlt
    refine L.faithful_of_walk hwalk 0 ?_ (by omega) ?_ k hk hlt
    · rw [Nat.zero_mul]
      exact L.start_none
    · rw [Nat.zero_mul, drop_zero]
      exact hcovered
  · intro hfaithful
    obtain ⟨calls, hwalk, hcovered⟩ := L.exists_walk hfaithful _ 0 none rfl (by omega)
      (by rw [Nat.zero_mul]; exact L.start_none)
    rw [Nat.zero_mul, drop_zero] at hcovered
    exact ⟨calls, hwalk, hcovered⟩

/-- Pages that hold the entries at the positions they cover hold, together, every entry. -/
theorem flatMap_eq_of_covered {α : Type*} {data : ρ → List α} {entries : List α}
    (hlength : L.length = entries.length)
    (hdata : ∀ {cursor page}, fetch cursor = .ok page →
      (data page).map some = (covered L.length L.width L.start cursor).map (entries[·]?))
    {calls : List (Option κ × ρ)} {cursor : Option κ} (hwalk : Walk fetch next cursor calls)
    (hcovered : L.coveredBy calls = List.range L.length) :
    calls.flatMap (fun call => data call.2) = entries := by
  apply map_injective_iff.mpr (Option.some_injective α)
  have hcalls : calls.flatMap (fun call => (data call.2).map some) =
      (L.coveredBy calls).map (entries[·]?) := by
    rw [coveredBy, map_flatMap, flatMap_def, flatMap_def]
    congr 1
    apply map_congr_left
    intro call hcall
    exact hdata (hwalk.fetch_of_mem hcall)
  have hrange : (List.range L.length).map (entries[·]?) = entries.map some := by
    have h := map_window entries entries.length 0
    rw [window_eq_drop (by omega), drop_zero, drop_zero, take_length] at h
    rw [hlength]
    exact h
  rw [map_flatMap, hcalls, hcovered, hrange]

end Listing

end CursorWalks
