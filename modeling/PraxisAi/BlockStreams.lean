import PraxisAi.ListSplits
import Mathlib.Data.List.Nodup
import Mathlib.Data.Set.Insert

/-! # Streams of numbered blocks

A stream starts blocks under the next free number, tells deltas about blocks that are open and
stops them. A ledger of the next number and the open blocks admits an entry or not; a log that
was admitted entry by entry is properly bracketed. -/
namespace BlockStreams

open ListSplits

variable {τ δ : Type}

inductive Entry (τ δ : Type) where
  | start (index : ℕ) (type : τ)
  | delta (index : ℕ) (value : δ)
  | stop (index : ℕ)

@[ext] structure Ledger (τ : Type) where
  next : ℕ
  openBlocks : Set (ℕ × τ)

def Ledger.empty : Ledger τ := ⟨0, ∅⟩

def startIndex : Entry τ δ → Option ℕ
  | .start i _ => some i
  | _ => none

def stopIndex : Entry τ δ → Option ℕ
  | .stop i => some i
  | _ => none

variable (fits : τ → δ → Prop)

inductive Admits : Ledger τ → Entry τ δ → Ledger τ → Prop
  | start (L : Ledger τ) (t : τ) :
      Admits L (.start L.next t) ⟨L.next + 1, insert (L.next, t) L.openBlocks⟩
  | delta (L : Ledger τ) {i : ℕ} {t : τ} {d : δ} (hopen : (i, t) ∈ L.openBlocks)
      (hfits : fits t d) : Admits L (.delta i d) L
  | stop (L : Ledger τ) {i : ℕ} {t : τ} (hopen : (i, t) ∈ L.openBlocks) :
      Admits L (.stop i) ⟨L.next, {b ∈ L.openBlocks | b.1 ≠ i}⟩

inductive Runs : Ledger τ → List (Entry τ δ) → Ledger τ → Prop
  | nil (L : Ledger τ) : Runs L [] L
  | cons {L L' L'' : Ledger τ} {e : Entry τ δ} {rest : List (Entry τ δ)}
      (hfirst : Admits fits L e L') (hrest : Runs L' rest L'') : Runs L (e :: rest) L''

variable {fits} {L L' L'' : Ledger τ} {log more : List (Entry τ δ)} {e : Entry τ δ}

theorem Runs.append (h : Runs fits L log L') (h' : Runs fits L' more L'') :
    Runs fits L (log ++ more) L'' := by
  induction h with
  | nil L => exact h'
  | cons hfirst _ ih => exact .cons hfirst (ih h')

theorem Runs.one (h : Admits fits L e L') : Runs fits L [e] L' := .cons h (.nil L')

/-- Starts are numbered in order, deltas and stops lie within their block, and a block is stopped
at most once. -/
structure Bracketed (fits : τ → δ → Prop) (log : List (Entry τ δ)) (L : Ledger τ) : Prop where
  numbered : log.filterMap startIndex = List.range L.next
  isOpen : ∀ i t, (i, t) ∈ L.openBlocks ↔ .start i t ∈ log ∧ .stop i ∉ log
  inside : ∀ before i d after, log = before ++ .delta i d :: after →
    ∃ t, .start i t ∈ before ∧ fits t d ∧ .stop i ∉ before
  started : ∀ before i after, log = before ++ .stop i :: after →
    ∃ t, .start i t ∈ before ∧ .stop i ∉ before
  once : (log.filterMap stopIndex).Nodup

theorem bracketed_nil : Bracketed fits [] (Ledger.empty : Ledger τ) := by
  refine ⟨rfl, ?_, ?_, ?_, List.nodup_nil⟩
  · intro i t
    simp [Ledger.empty]
  · intro before i d after h
    exact absurd h (by simp)
  · intro before i after h
    exact absurd h (by simp)

theorem Bracketed.start_lt (h : Bracketed fits log L) {i : ℕ} {t : τ} (hmem : .start i t ∈ log) :
    i < L.next := by
  have hstart : i ∈ log.filterMap startIndex := List.mem_filterMap.mpr ⟨_, hmem, rfl⟩
  rw [h.numbered] at hstart
  exact List.mem_range.mp hstart

theorem Bracketed.stop_lt (h : Bracketed fits log L) {i : ℕ} (hmem : .stop i ∈ log) :
    i < L.next := by
  obtain ⟨before, after, hlog⟩ := List.append_of_mem hmem
  obtain ⟨t, hstart, -⟩ := h.started before i after hlog
  exact h.start_lt (hlog ▸ List.mem_append_left _ hstart)

theorem mem_stops {i : ℕ} : i ∈ log.filterMap stopIndex ↔ .stop i ∈ log := by
  rw [List.mem_filterMap]
  constructor
  · rintro ⟨e, hmem, he⟩
    cases e with
    | stop j =>
      cases he
      exact hmem
    | start j t => cases he
    | delta j d => cases he
  · exact fun hmem => ⟨_, hmem, rfl⟩

/-- Entries before the new one keep their place. -/
theorem Bracketed.extend (h : Bracketed fits log L)
    (hnumbered : (log ++ [e]).filterMap startIndex = List.range L'.next)
    (hopen : ∀ i t, (i, t) ∈ L'.openBlocks ↔ .start i t ∈ log ++ [e] ∧ .stop i ∉ log ++ [e])
    (hdelta : ∀ i d, e = .delta i d → ∃ t, .start i t ∈ log ∧ fits t d ∧ .stop i ∉ log)
    (hstop : ∀ i, e = .stop i → ∃ t, .start i t ∈ log ∧ .stop i ∉ log) :
    Bracketed fits (log ++ [e]) L' := by
  refine ⟨hnumbered, hopen, ?_, ?_, ?_⟩
  · intro before i d after hlog
    rcases snoc_split hlog with ⟨rfl, he, -⟩ | ⟨rest, -, hold⟩
    · exact hdelta i d he.symm
    · exact h.inside before i d rest hold
  · intro before i after hlog
    rcases snoc_split hlog with ⟨rfl, he, -⟩ | ⟨rest, -, hold⟩
    · exact hstop i he.symm
    · exact h.started before i rest hold
  · rw [List.filterMap_append]
    cases e with
    | start i t =>
      rw [show List.filterMap stopIndex [Entry.start i t] = ([] : List ℕ) from rfl, List.append_nil]
      exact h.once
    | delta i d =>
      rw [show List.filterMap stopIndex [Entry.delta i d] = ([] : List ℕ) from rfl, List.append_nil]
      exact h.once
    | stop i =>
      obtain ⟨t, -, hfresh⟩ := hstop i rfl
      refine List.Nodup.append h.once (List.nodup_singleton i) ?_
      intro j hj hi
      cases List.mem_singleton.mp hi
      exact hfresh (mem_stops.mp hj)

theorem Bracketed.concat (h : Bracketed fits log L) (he : Admits fits L e L') :
    Bracketed fits (log ++ [e]) L' := by
  cases he with
  | start t =>
    refine h.extend ?_ ?_ (by intro i d hd; cases hd) (by intro i hi; cases hi)
    · rw [List.filterMap_append, h.numbered, List.range_succ]
      rfl
    · intro i t'
      have hfresh : .stop L.next ∉ log := fun hmem => lt_irrefl _ (h.stop_lt hmem)
      simp only [Set.mem_insert_iff, Prod.mk.injEq, h.isOpen, List.mem_append,
        List.mem_singleton, Entry.start.injEq, reduceCtorEq, or_false]
      constructor
      · rintro (⟨rfl, rfl⟩ | ⟨hstart, hstop⟩)
        · exact ⟨.inr ⟨rfl, rfl⟩, hfresh⟩
        · exact ⟨.inl hstart, hstop⟩
      · rintro ⟨hstart | ⟨rfl, rfl⟩, hstop⟩
        · exact .inr ⟨hstart, hstop⟩
        · exact .inl ⟨rfl, rfl⟩
  | delta hopen hfits =>
    obtain ⟨hstart, hstop⟩ := (h.isOpen _ _).mp hopen
    refine h.extend ?_ ?_ ?_ (by intro i hi; cases hi)
    · rw [List.filterMap_append, h.numbered]
      exact List.append_nil _
    · intro i t
      simp [h.isOpen]
    · rintro i d ⟨⟩
      exact ⟨_, hstart, hfits, hstop⟩
  | stop hopen =>
    obtain ⟨hstart, hstop⟩ := (h.isOpen _ _).mp hopen
    refine h.extend ?_ ?_ (by intro i d hd; cases hd) ?_
    · rw [List.filterMap_append, h.numbered]
      exact List.append_nil _
    · intro i t
      simp only [Set.mem_ofPred_eq, h.isOpen, List.mem_append, List.mem_singleton,
        Entry.stop.injEq, reduceCtorEq, or_false, not_or, and_assoc]
    · rintro i ⟨⟩
      exact ⟨_, hstart, hstop⟩

theorem Bracketed.run (h : Bracketed fits log L) (hmore : Runs fits L more L') :
    Bracketed fits (log ++ more) L' := by
  induction hmore generalizing log with
  | nil L => rwa [List.append_nil]
  | cons hfirst _ ih =>
    have hnext := ih (h.concat hfirst)
    rwa [List.append_assoc] at hnext

/-- A log that was admitted from the empty ledger is bracketed. -/
theorem Runs.bracketed (h : Runs fits Ledger.empty log L) : Bracketed fits log L := by
  simpa using bracketed_nil.run h

/-- Once nothing is open, every block that was started has been stopped, once. -/
theorem Bracketed.count_stop (h : Bracketed fits log L) (hnone : L.openBlocks = ∅) {i : ℕ} {t : τ}
    (hmem : .start i t ∈ log) : (log.filterMap stopIndex).count i = 1 := by
  refine List.count_eq_one_of_mem h.once (mem_stops.mpr ?_)
  by_contra hstop
  have hopen := (h.isOpen i t).mpr ⟨hmem, hstop⟩
  rw [hnone] at hopen
  exact hopen

end BlockStreams
