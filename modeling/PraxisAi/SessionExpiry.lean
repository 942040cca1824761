import Mathlib.Data.List.Induction
import Mathlib.Logic.Function.Basic

/-! # Lazy expiry of session bindings

A lookup that finds an expired binding removes its key in a step of its own, without a second look
at what the key holds by then. Lookups, stores and evictions of any number of requests come in any
order, and the clock never goes back. -/
namespace SessionExpiry

open List Function

structure Binding where
  expires : ℕ
  stableId : String
  deriving DecidableEq

structure World (κ ι : Type) where
  bindings : κ → Option Binding
  /-- The key that a request has found expired and is about to remove. -/
  removing : ι → Option κ
  clock : ℕ

def World.start (κ ι : Type) (clock : ℕ) : World κ ι := ⟨fun _ => none, fun _ => none, clock⟩

inductive Event (κ ι : Type) where
  | tick (duration : ℕ)
  /-- The read of `lookup_binding`. -/
  | lookup (i : ι) (key : κ)
  /-- The removal of `lookup_binding`. -/
  | remove (i : ι)
  /-- The insert of `store_binding`. -/
  | store (key : κ) (stableId : String)
  /-- `evict_expired` at one entry; it has read the clock some time ago. -/
  | evict (key : κ) (ago : ℕ)
  deriving DecidableEq

variable {κ ι : Type} [DecidableEq κ] [DecidableEq ι] (ttl : ℕ)

def next (w : World κ ι) : Event κ ι → World κ ι
  | .tick duration => { w with clock := w.clock + duration }
  | .lookup i key =>
    match w.removing i, w.bindings key with
    | none, some binding =>
      if binding.expires < w.clock then
        { w with removing := update w.removing i (some key) }
      else w
    | _, _ => w
  | .remove i =>
    match w.removing i with
    | none => w
    | some key => { w with
        bindings := update w.bindings key none
        removing := update w.removing i none }
  | .store key stableId =>
    { w with bindings := update w.bindings key (some ⟨w.clock + ttl, stableId⟩) }
  | .evict key ago =>
    match w.bindings key with
    | none => w
    | some binding =>
      if binding.expires > w.clock - ago then w
      else { w with bindings := update w.bindings key none }

def run (clock : ℕ) (events : List (Event κ ι)) : World κ ι :=
  events.foldl (next ttl) (World.start κ ι clock)

/-- Nothing is stored under the key. -/
def Untouched (key : κ) (events : List (Event κ ι)) : Prop :=
  ∀ stableId, Event.store key stableId ∉ events

def Lasting (clock : ℕ) (events : List (Event κ ι)) : Prop :=
  ∀ before key stableId between after,
    events = before ++ .store key stableId :: (between ++ after) → Untouched key between →
    (run ttl clock (before ++ .store key stableId :: between)).clock <
      (run ttl clock before).clock + ttl →
    (run ttl clock (before ++ .store key stableId :: between)).bindings key =
      some ⟨(run ttl clock before).clock + ttl, stableId⟩

/-- No step other than a store takes away a binding that has not expired. -/
def Harmless (clock : ℕ) (events : List (Event κ ι)) : Prop :=
  ∀ before event after key binding, events = before ++ event :: after →
    (∀ stableId, event ≠ .store key stableId) →
    (run ttl clock before).bindings key = some binding →
    (run ttl clock before).clock < binding.expires →
    (run ttl clock (before ++ [event])).bindings key = some binding

/-- A lookup that found the key expired removes it when another request has stored a binding there
that has not expired. -/
def Overtaken (clock : ℕ) (events : List (Event κ ι)) : Prop :=
  ∃ before key stableId between i after,
    events = before ++ .store key stableId :: (between ++ .remove i :: after) ∧
    Untouched key between ∧
    (run ttl clock (before ++ .store key stableId :: between)).removing i = some key ∧
    (run ttl clock (before ++ .store key stableId :: between)).clock <
      (run ttl clock before).clock + ttl

variable {ttl} {clock : ℕ} {w : World κ ι} {key : κ} {events : List (Event κ ι)}

theorem run_concat (events : List (Event κ ι)) (event : Event κ ι) :
    run ttl clock (events ++ [event]) = next ttl (run ttl clock events) event := by
  rw [run, foldl_append]
  rfl

theorem next_cases (w : World κ ι) (event : Event κ ι) (key : κ) :
    (next ttl w event).bindings key = w.bindings key ∨
    (∃ stableId, event = .store key stableId ∧
      (next ttl w event).bindings key = some ⟨w.clock + ttl, stableId⟩) ∨
    ((next ttl w event).bindings key = none ∧
      ((∃ i, event = .remove i ∧ w.removing i = some key) ∨
        ∃ binding, w.bindings key = some binding ∧ binding.expires ≤ w.clock)) := by
  cases event with
  | tick duration => exact .inl rfl
  | lookup i key' =>
    left
    unfold next
    dsimp only
    split
    · split
      · rfl
      · rfl
    · rfl
  | remove i =>
    rcases hremoving : w.removing i with _ | key'
    · left
      simp only [next, hremoving]
    · by_cases hkey : key' = key
      · subst hkey
        refine .inr (.inr ⟨?_, .inl ⟨i, rfl, hremoving⟩⟩)
        simp only [next, hremoving]
        exact update_self _ _ _
      · left
        simp only [next, hremoving]
        exact update_of_ne (Ne.symm hkey) _ _
  | store key' stableId =>
    by_cases hkey : key' = key
    · subst hkey
      exact .inr (.inl ⟨stableId, rfl, update_self _ _ _⟩)
    · exact .inl (update_of_ne (Ne.symm hkey) _ _)
  | evict key' ago =>
    rcases hbinding : w.bindings key' with _ | binding
    · left
      simp only [next, hbinding]
    · by_cases hlive : binding.expires > w.clock - ago
      · left
        simp only [next, hbinding, if_pos hlive]
      · by_cases hkey : key' = key
        · subst hkey
          refine .inr (.inr ⟨?_, .inr ⟨binding, hbinding, by omega⟩⟩)
          simp only [next, hbinding, if_neg hlive]
          exact update_self _ _ _
        · left
          simp only [next, hbinding, if_neg hlive]
          exact update_of_ne (Ne.symm hkey) _ _

theorem clock_le_next (w : World κ ι) (event : Event κ ι) : w.clock ≤ (next ttl w event).clock := by
  unfold next
  split
  · exact Nat.le_add_right _ _
  · split
    · split <;> exact Nat.le_refl _
    · exact Nat.le_refl _
  · split <;> exact Nat.le_refl _
  · exact Nat.le_refl _
  · split
    · exact Nat.le_refl _
    · split <;> exact Nat.le_refl _

/-- A removal that was not overtaken leaves a binding that has not expired. -/
theorem kept_of_not_overtaken {before between after : List (Event κ ι)} {event : Event κ ι}
    {stableId : String} (h : ¬Overtaken ttl clock events)
    (hevents : events = before ++ .store key stableId :: (between ++ event :: after))
    (huntouched : Untouched key between) (hevent : ∀ other, event ≠ .store key other)
    (hlive : (run ttl clock (before ++ .store key stableId :: between)).clock <
      (run ttl clock before).clock + ttl)
    (hbinding : (run ttl clock (before ++ .store key stableId :: between)).bindings key =
      some ⟨(run ttl clock before).clock + ttl, stableId⟩) :
    (next ttl (run ttl clock (before ++ .store key stableId :: between)) event).bindings key =
      some ⟨(run ttl clock before).clock + ttl, stableId⟩ := by
  rcases next_cases (run ttl clock (before ++ .store key stableId :: between)) event key with
    hsame | ⟨other, hstore, -⟩ | ⟨-, ⟨i, rfl, hremoving⟩ | ⟨binding, hheld, hexpired⟩⟩
  · exact hsame.trans hbinding
  · exact absurd hstore (hevent other)
  · exact absurd ⟨before, key, stableId, between, i, after, hevents, huntouched, hremoving, hlive⟩ h
  · rw [hbinding] at hheld
    obtain rfl := Option.some.inj hheld
    dsimp only at hexpired
    omega

theorem lasting_of_not_overtaken (h : ¬Overtaken ttl clock events) : Lasting ttl clock events := by
  intro before key stableId between
  -- from the store on, one event at a time
  induction between using List.reverseRecOn with
  | nil =>
    intro after _ _ _
    rw [run_concat]
    exact update_self _ _ _
  | append_singleton between event ih =>
    intro after hevents huntouched hlive
    rw [append_assoc, singleton_append] at hevents
    rw [← cons_append, ← append_assoc, run_concat] at hlive ⊢
    have hbefore := Nat.lt_of_le_of_lt (clock_le_next _ event) hlive
    have hfront : Untouched key between := fun other hmem =>
      huntouched other (mem_append_left _ hmem)
    apply kept_of_not_overtaken h hevents hfront _ hbefore (ih _ hevents hfront hbefore)
    rintro other rfl
    exact huntouched other (mem_append_right _ mem_cons_self)

theorem exists_store {binding : Binding} (events : List (Event κ ι))
    (h : (run ttl clock events).bindings key = some binding) :
    ∃ before stableId between, events = before ++ .store key stableId :: between ∧
      Untouched key between ∧ binding = ⟨(run ttl clock before).clock + ttl, stableId⟩ := by
  induction events using List.reverseRecOn with
  | nil => cases h
  | append_singleton events event ih =>
    rw [run_concat] at h
    by_cases hstore : ∃ stableId, event = .store key stableId
    · obtain ⟨stableId, rfl⟩ := hstore
      refine ⟨events, stableId, [], rfl, fun _ => not_mem_nil, ?_⟩
      have hstored : some ⟨(run ttl clock events).clock + ttl, stableId⟩ = some binding :=
        (update_self key _ _).symm.trans h
      exact (Option.some.inj hstored).symm
    · rcases next_cases (run ttl clock events) event key with
        hsame | ⟨other, hother, -⟩ | ⟨hnone, -⟩
      · obtain ⟨before, stableId, between, rfl, huntouched, hbinding⟩ := ih (hsame.symm.trans h)
        refine ⟨before, stableId, between ++ [event], by simp, fun other hmem => ?_, hbinding⟩
        rcases mem_append.mp hmem with hmem | hmem
        · exact huntouched other hmem
        · exact hstore ⟨other, (mem_singleton.mp hmem).symm⟩
      · exact absurd ⟨other, hother⟩ hstore
      · rw [hnone] at h
        cases h

theorem harmless_of_not_overtaken (h : ¬Overtaken ttl clock events) :
    Harmless ttl clock events := by
  intro before event after key binding hevents hevent hbinding hlive
  obtain ⟨front, stableId, between, rfl, huntouched, rfl⟩ := exists_store before hbinding
  rw [append_assoc, cons_append] at hevents
  rw [run_concat]
  exact kept_of_not_overtaken h hevents huntouched hevent hlive hbinding

theorem not_overtaken_of_lasting (h : Lasting ttl clock events) : ¬Overtaken ttl clock events := by
  rintro ⟨before, key, stableId, between, i, after, hevents, huntouched, hremoving, hlive⟩
  have hremoved : next ttl (run ttl clock (before ++ .store key stableId :: between)) (.remove i) =
      { run ttl clock (before ++ .store key stableId :: between) with
        bindings := update
          (run ttl clock (before ++ .store key stableId :: between)).bindings key none
        removing := update
          (run ttl clock (before ++ .store key stableId :: between)).removing i none } := by
    simp only [next, hremoving]
  have hrun : run ttl clock (before ++ .store key stableId :: (between ++ [.remove i])) =
      next ttl (run ttl clock (before ++ .store key stableId :: between)) (.remove i) := by
    rw [← run_concat, append_assoc, cons_append]
  have hbinding := h before key stableId (between ++ [.remove i]) after
    (by rw [hevents, append_assoc, singleton_append])
    (fun other hmem => by
      rcases mem_append.mp hmem with hmem | hmem
      · exact huntouched other hmem
      · cases mem_singleton.mp hmem)
    (by rw [hrun, hremoved]; exact hlive)
  rw [hrun, hremoved] at hbinding
  cases (update_self _ _ _).symm.trans hbinding

/-- Bindings live as long as they should in exactly the runs in which no removal is overtaken by a
store. -/
theorem bindings_last_iff (ttl clock : ℕ) (events : List (Event κ ι)) :
    Lasting ttl clock events ∧ Harmless ttl clock events ↔ ¬Overtaken ttl clock events :=
  ⟨fun h => not_overtaken_of_lasting h.1,
    fun h => ⟨lasting_of_not_overtaken h, harmless_of_not_overtaken h⟩⟩

/-- Two requests of one session find its binding expired; the second one has already stored a new
binding when the first one removes the key. -/
def rivals : List (Event Unit Bool) :=
  [.store () "a", .tick 11, .lookup true (), .lookup false (), .remove false, .store () "b",
    .remove true]

theorem fresh_binding_removed :
    (run 10 0 rivals).bindings () = none ∧ (run 10 0 rivals).clock = 11 ∧
    (run 10 0 rivals.dropLast).bindings () = some ⟨21, "b"⟩ ∧
    ¬(Lasting 10 0 rivals ∧ Harmless 10 0 rivals) := by
  refine ⟨by decide, by decide, by decide, ?_⟩
  rintro ⟨hlasting, -⟩
  exact not_overtaken_of_lasting hlasting
    ⟨[.store () "a", .tick 11, .lookup true (), .lookup false (), .remove false], (), "b", [], true,
      [], rfl, fun _ => not_mem_nil, by decide, by decide⟩

end SessionExpiry
