import PraxisAi.SubWindowAccounting
import Mathlib.Algebra.BigOperators.Intervals
import Mathlib.Algebra.Order.BigOperators.Group.Finset

/-! # The retry hint of the shared sliding window

A denied request is told when enough of the counted usage will have left the windows. If nothing
is counted meanwhile, every budget admits the request at that instant and some budget denies it
at every earlier one. -/
namespace RetryHints

open List
open SaturatingArithmetic SubWindows ReservationLedger SlidingWindowLedger ValkeySlidingWindow
  SubWindowAccounting ExpiringKeys ValkeyCommands

/-- The counters of one key, by sub-window width and index. -/
abbrev Counters : Type := ℕ → ℕ → Option ℤ

def readCounters (counters : Counters) (atMs : ℕ) (budget : Budget) : List (Option ℤ) :=
  (BucketRange.covering atMs budget.windowMs).indexes.map (counters (bucketMs budget.windowMs))

def amount (counters : Counters) (budget : Budget) (i : ℕ) : ℕ :=
  ((counters (bucketMs budget.windowMs) i).getD 0).toNat

def firstIndex (budget : Budget) (atMs : ℕ) : ℕ :=
  bucketIndex (atMs - budget.windowMs) (bucketMs budget.windowMs)

def lastIndex (budget : Budget) (atMs : ℕ) : ℕ := bucketIndex atMs (bucketMs budget.windowMs)

def usageAt (counters : Counters) (budget : Budget) (atMs : ℕ) : ℕ :=
  ∑ i ∈ Finset.Ico (firstIndex budget atMs) (lastIndex budget atMs + 1), amount counters budget i

def Admits (counters : Counters) (estimate atMs : ℕ) (budget : Budget) : Prop :=
  (evaluateBudget (readCounters counters atMs budget) budget estimate atMs).after ≤ budget.capacity

section Sums

theorem sum_range' (f : ℕ → ℕ) (lo n : ℕ) :
    ((List.range' lo n).map f).sum = ∑ i ∈ Finset.Ico lo (lo + n), f i := by
  induction n generalizing lo with
  | zero => simp
  | succ n ih =>
    have hhead : ∑ i ∈ Finset.Ico lo (lo + (n + 1)), f i =
        f lo + ∑ i ∈ Finset.Ico (lo + 1) (lo + (n + 1)), f i :=
      Finset.sum_eq_sum_Ico_succ_bot (by omega) f
    rw [range'_succ, map_cons, sum_cons, ih, hhead, Nat.add_assoc lo 1 n, Nat.add_comm 1 n]

/-- The index at which the usage that expires first reaches what is needed. -/
theorem freeingIndex_spec {f : ℕ → Option ℤ} {needed : ℕ} :
    ∀ (n lo expiring freeing : ℕ), expiring < needed →
    needed ≤ expiring + ∑ i ∈ Finset.Ico lo (lo + n), ((f i).getD 0).toNat →
    expiring + ∑ i ∈ Finset.Ico lo (lo + n), ((f i).getD 0).toNat ≤ u64Max →
    ∃ k, freeingIndex needed expiring freeing
        ((List.range' lo n).zip ((List.range' lo n).map f)) = k ∧
      lo ≤ k ∧ k < lo + n ∧
      expiring + ∑ i ∈ Finset.Ico lo k, ((f i).getD 0).toNat < needed ∧
      needed ≤ expiring + ∑ i ∈ Finset.Ico lo (k + 1), ((f i).getD 0).toNat := by
  intro n
  induction n with
  | zero =>
    intro lo expiring freeing hlt hle _
    simp only [Nat.add_zero, Finset.Ico_self, Finset.sum_empty] at hle
    omega
  | succ n ih =>
    intro lo expiring freeing hlt hle hbound
    have hsplit : ∑ i ∈ Finset.Ico lo (lo + (n + 1)), ((f i).getD 0).toNat =
        ((f lo).getD 0).toNat + ∑ i ∈ Finset.Ico (lo + 1) (lo + 1 + n), ((f i).getD 0).toNat := by
      rw [Finset.sum_eq_sum_Ico_succ_bot (by omega), Nat.add_right_comm lo 1 n]
      rfl
    rw [hsplit] at hle hbound
    have hstep : satAdd u64Max expiring ((f lo).getD 0).toNat =
        expiring + ((f lo).getD 0).toNat := by
      rw [satAdd]
      omega
    rw [range'_succ, map_cons, zip_cons_cons, freeingIndex, hstep]
    by_cases hreached : needed ≤ expiring + ((f lo).getD 0).toNat
    · refine ⟨lo, if_pos hreached, le_rfl, by omega, ?_, ?_⟩
      · simpa using hlt
      · simpa using hreached
    · rw [if_neg hreached]
      obtain ⟨k, hk, hlo, hhi, hbefore, hafter⟩ :=
        ih (lo + 1) (expiring + ((f lo).getD 0).toNat) lo (by omega) (by omega) (by omega)
      have hhead : ∀ m, lo + 1 ≤ m → ∑ i ∈ Finset.Ico lo m, ((f i).getD 0).toNat =
          ((f lo).getD 0).toNat + ∑ i ∈ Finset.Ico (lo + 1) m, ((f i).getD 0).toNat := by
        intro m hm
        exact Finset.sum_eq_sum_Ico_succ_bot (by omega) _
      refine ⟨k, hk, by omega, by omega, ?_, ?_⟩
      · rw [hhead k hlo]
        omega
      · rw [hhead (k + 1) (by omega)]
        omega

end Sums

section Reads

variable {counters : Counters} {budget : Budget} {atMs nowMs : ℕ}

theorem sum_readCounters (hat : atMs ≤ u64Max) :
    ((readCounters counters atMs budget).map fun value => (value.getD 0).toNat).sum =
      usageAt counters budget atMs := by
  have hmono := bucketIndex_sub_le atMs budget.windowMs
  rw [readCounters, indexes_covering hat, map_map, Function.comp_def, sum_range',
    Nat.add_sub_cancel' (by omega)]
  rfl

theorem countedUsage_readCounters (hat : atMs ≤ u64Max)
    (hfits : usageAt counters budget atMs < 2 ^ 63) :
    countedUsage (readCounters counters atMs budget) = usageAt counters budget atMs := by
  rw [countedUsage_eq, sum_readCounters hat, i64Max]
  omega

theorem firstIndex_le_iff (budget : Budget) (atMs i : ℕ) :
    firstIndex budget atMs ≤ i ↔
      atMs < (i + 1) * bucketMs budget.windowMs + budget.windowMs := by
  have hw := bucketMs_pos budget.windowMs
  rw [firstIndex, bucketIndex_eq hw, ← Nat.lt_succ_iff, Nat.div_lt_iff_lt_mul hw,
    Nat.succ_eq_add_one]
  have hpos : 0 < (i + 1) * bucketMs budget.windowMs := Nat.mul_pos (Nat.succ_pos i) hw
  omega

theorem lastIndex_mono (budget : Budget) {t t' : ℕ} (h : t ≤ t') :
    lastIndex budget t ≤ lastIndex budget t' := Nat.div_le_div_right h

theorem firstIndex_mono (budget : Budget) {t t' : ℕ} (h : t ≤ t') :
    firstIndex budget t ≤ firstIndex budget t' := Nat.div_le_div_right (by omega)

end Reads

def NothingAfter (counters : Counters) (nowMs : ℕ) (budget : Budget) : Prop :=
  ∀ i, lastIndex budget nowMs < i → counters (bucketMs budget.windowMs) i = none

section Aging

variable {counters : Counters} {budget : Budget} {nowMs atMs estimate : ℕ}

theorem usageAt_later (hnone : NothingAfter counters nowMs budget) (hle : nowMs ≤ atMs) :
    usageAt counters budget atMs =
      ∑ i ∈ Finset.Ico (firstIndex budget atMs) (lastIndex budget nowMs + 1),
        amount counters budget i := by
  have hlast := lastIndex_mono budget hle
  symm
  apply Finset.sum_subset
  · exact Finset.Ico_subset_Ico_right (by omega)
  · intro i hi hnot
    rw [Finset.mem_Ico] at hi hnot
    rw [amount, hnone i (by omega)]
    rfl

theorem usageAt_split (hnone : NothingAfter counters nowMs budget) (hle : nowMs ≤ atMs)
    (hfirst : firstIndex budget atMs ≤ lastIndex budget nowMs + 1) :
    usageAt counters budget nowMs =
      ∑ i ∈ Finset.Ico (firstIndex budget nowMs) (firstIndex budget atMs),
        amount counters budget i + usageAt counters budget atMs := by
  rw [usageAt_later hnone hle, usageAt]
  exact (Finset.sum_Ico_consecutive _ (firstIndex_mono budget hle) hfirst).symm

theorem usageAt_anti (hnone : NothingAfter counters nowMs budget) (hle : nowMs ≤ atMs) :
    usageAt counters budget atMs ≤ usageAt counters budget nowMs := by
  rw [usageAt_later hnone hle, usageAt]
  exact Finset.sum_le_sum_of_subset
    (Finset.Ico_subset_Ico_left (firstIndex_mono budget hle))

end Aging

/-- A budget at the instant of a denial: its sums fit the counters, and the instants at which its
sub-windows leave fit the clock. -/
structure Representable (counters : Counters) (estimate nowMs : ℕ) (budget : Budget) : Prop where
  usage : usageAt counters budget nowMs < 2 ^ 63
  after : usageAt counters budget nowMs + estimate ≤ u64Max
  clock : nowMs + budget.windowMs + bucketMs budget.windowMs ≤ u64Max

section OneBudget

variable {counters : Counters} {budget : Budget} {nowMs atMs estimate : ℕ}

theorem admits_iff (hnone : NothingAfter counters nowMs budget)
    (hfits : Representable counters estimate nowMs budget) (hle : nowMs ≤ atMs)
    (hat : atMs ≤ u64Max) :
    Admits counters estimate atMs budget ↔
      usageAt counters budget atMs + estimate ≤ budget.capacity := by
  have hanti := usageAt_anti hnone hle
  have husage := hfits.usage
  have hafter := hfits.after
  have hcounted := @countedUsage_readCounters counters budget atMs hat (by omega)
  rw [Admits, evaluateBudget, hcounted, satAdd, Nat.min_eq_left (by omega)]

/-- The hint of a budget that denies: a sub-window in front of which too little expires and
with which enough does. -/
theorem retry_of_denied (hfits : Representable counters estimate nowMs budget)
    (hestimate : estimate ≤ budget.capacity)
    (hdenied : budget.capacity < usageAt counters budget nowMs + estimate) :
    ∃ k, firstIndex budget nowMs ≤ k ∧ k ≤ lastIndex budget nowMs ∧
      retryWhenEnoughUsageExpires (readCounters counters nowMs budget) budget nowMs
          (usageAt counters budget nowMs + estimate) =
        (k + 1) * bucketMs budget.windowMs + budget.windowMs - nowMs ∧
      (k + 1) * bucketMs budget.windowMs + budget.windowMs ≤ u64Max ∧
      ∑ i ∈ Finset.Ico (firstIndex budget nowMs) k, amount counters budget i <
        usageAt counters budget nowMs + estimate - budget.capacity ∧
      usageAt counters budget nowMs + estimate - budget.capacity ≤
        ∑ i ∈ Finset.Ico (firstIndex budget nowMs) (k + 1), amount counters budget i := by
  have husage := hfits.usage
  have hclock := hfits.clock
  have hnow : nowMs ≤ u64Max := by omega
  have hmono : firstIndex budget nowMs ≤ lastIndex budget nowMs :=
    bucketIndex_sub_le nowMs budget.windowMs
  have hall : ∑ i ∈ Finset.Ico (firstIndex budget nowMs) (firstIndex budget nowMs +
      (lastIndex budget nowMs + 1 - firstIndex budget nowMs)), amount counters budget i =
        usageAt counters budget nowMs := by
    rw [Nat.add_sub_cancel' (by omega)]
    rfl
  obtain ⟨k, hk, hlo, hhi, hbefore, hafter⟩ :=
    @freeingIndex_spec (counters (bucketMs budget.windowMs))
      (usageAt counters budget nowMs + estimate - budget.capacity)
      (lastIndex budget nowMs + 1 - firstIndex budget nowMs) (firstIndex budget nowMs) 0
      (firstIndex budget nowMs) (by omega)
      (by
        change _ ≤ 0 + ∑ i ∈ Finset.Ico _ _, amount counters budget i
        omega)
      (by
        change 0 + ∑ i ∈ Finset.Ico _ _, amount counters budget i ≤ _
        simp only [u64Max] at *
        omega)
  rw [Nat.zero_add] at hbefore hafter
  have hlast : k ≤ lastIndex budget nowMs := by omega
  -- the instant at which sub-window `k` leaves
  have hw := bucketMs_pos budget.windowMs
  have hstart : k * bucketMs budget.windowMs ≤ nowMs := by
    refine le_trans (Nat.mul_le_mul_right _ hlast) ?_
    rw [lastIndex, bucketIndex_eq hw]
    exact Nat.div_mul_le_self _ _
  have hmul : (k + 1) * bucketMs budget.windowMs =
      k * bucketMs budget.windowMs + bucketMs budget.windowMs := Nat.succ_mul _ _
  have hk1 : k + 1 ≤ (k + 1) * bucketMs budget.windowMs := Nat.le_mul_of_pos_right _ hw
  have hleaves := (firstIndex_le_iff budget nowMs k).mp hlo
  refine ⟨k, hlo, hlast, ?_, by omega, hbefore, hafter⟩
  have hfreeing : freeingIndex (usageAt counters budget nowMs + estimate - budget.capacity) 0
      (BucketRange.covering nowMs budget.windowMs).first
      ((BucketRange.covering nowMs budget.windowMs).indexes.zip
        (readCounters counters nowMs budget)) = k := by
    rw [readCounters, indexes_covering hnow]
    exact hk
  rw [retryWhenEnoughUsageExpires, hfreeing, retryAfterMs,
    Nat.min_eq_left (show k + 1 ≤ u64Max by omega),
    Nat.min_eq_left (show (k + 1) * bucketMs budget.windowMs ≤ u64Max by omega),
    Nat.min_eq_left (show (k + 1) * bucketMs budget.windowMs + budget.windowMs ≤ u64Max by omega),
    Nat.max_eq_left (by omega)]

/-- A budget admits from the instant of its hint on and not before. -/
theorem hint_exact (hnone : NothingAfter counters nowMs budget)
    (hfits : Representable counters estimate nowMs budget) (hestimate : estimate ≤ budget.capacity)
    {r : ℕ} (hr : (evaluateBudget (readCounters counters nowMs budget) budget estimate
      nowMs).retryAfterMs = r) :
    nowMs + r ≤ u64Max ∧ ∀ t, nowMs ≤ t → t ≤ u64Max →
      (Admits counters estimate t budget ↔ nowMs + r ≤ t) := by
  have husage := hfits.usage
  have hafter := hfits.after
  have hclock := hfits.clock
  have hcounted := @countedUsage_readCounters counters budget nowMs (by omega) husage
  simp only [evaluateBudget] at hr
  rw [hcounted, satAdd, Nat.min_eq_left hafter] at hr
  by_cases hfree : usageAt counters budget nowMs + estimate ≤ budget.capacity
  · rw [if_pos hfree] at hr
    subst hr
    refine ⟨by omega, fun t hle ht => ?_⟩
    have hanti := usageAt_anti hnone hle
    rw [admits_iff hnone hfits hle ht]
    omega
  · rw [if_neg hfree] at hr
    obtain ⟨k, hlo, hhi, hretry, hbound, hbefore, henough⟩ :=
      retry_of_denied hfits hestimate (by omega)
    have hleaves := (firstIndex_le_iff budget nowMs k).mp hlo
    rw [hretry] at hr
    refine ⟨by omega, fun t hle ht => ?_⟩
    rw [admits_iff hnone hfits hle ht]
    have hstill := firstIndex_le_iff budget t k
    constructor
    · intro hadmits
      by_contra hearly
      -- sub-window `k` and all later ones still count
      have hfirst : firstIndex budget t ≤ k := hstill.mpr (by omega)
      have hsplit := usageAt_split hnone hle (by omega)
      have hfront : ∑ i ∈ Finset.Ico (firstIndex budget nowMs) (firstIndex budget t),
          amount counters budget i ≤
            ∑ i ∈ Finset.Ico (firstIndex budget nowMs) k, amount counters budget i :=
        Finset.sum_le_sum_of_subset (Finset.Ico_subset_Ico_right hfirst)
      omega
    · intro hlate
      have hfirst : k + 1 ≤ firstIndex budget t := by
        by_contra hnot
        have := hstill.mp (by omega)
        omega
      have hrest : usageAt counters budget t ≤
          ∑ i ∈ Finset.Ico (k + 1) (lastIndex budget nowMs + 1), amount counters budget i := by
        rw [usageAt_later hnone hle]
        exact Finset.sum_le_sum_of_subset (Finset.Ico_subset_Ico_left hfirst)
      have hsplit : ∑ i ∈ Finset.Ico (firstIndex budget nowMs) (k + 1), amount counters budget i +
          ∑ i ∈ Finset.Ico (k + 1) (lastIndex budget nowMs + 1), amount counters budget i =
            usageAt counters budget nowMs :=
        Finset.sum_Ico_consecutive _ (by omega) (by omega)
      omega

end OneBudget

section Decisions

theorem foldl_max_spec {α : Type} (f : α → ℕ) (l : List α) (n : ℕ) :
    (∀ a ∈ l, f a ≤ l.foldl (fun m a => max m (f a)) n) ∧
      (n < l.foldl (fun m a => max m (f a)) n →
        ∃ a ∈ l, f a = l.foldl (fun m a => max m (f a)) n) ∧
      n ≤ l.foldl (fun m a => max m (f a)) n := by
  induction l generalizing n with
  | nil => simp
  | cons x l ih =>
    obtain ⟨hle, hmem, hstart⟩ := ih (max n (f x))
    rw [foldl_cons]
    refine ⟨List.forall_mem_cons.mpr ⟨by omega, hle⟩, ?_, by omega⟩
    intro hlt
    by_cases hrest : max n (f x) < l.foldl (fun m a => max m (f a)) (max n (f x))
    · obtain ⟨a, ha, hval⟩ := hmem hrest
      exact ⟨a, mem_cons_of_mem _ ha, hval⟩
    · exact ⟨x, mem_cons_self, by omega⟩

variable {c : ValkeySlidingWindowConfig} {reads : WindowReads} {estimate nowMs r remaining : ℕ}

theorem decideReserve_denied {counters : Counters}
    (hreads : reads.buckets = c.budgets.map (readCounters counters nowMs))
    (h : decideReserve c reads estimate nowMs = .denied r remaining .windowCapacity) :
    (∀ b ∈ c.budgets, (evaluateBudget (readCounters counters nowMs b) b estimate
      nowMs).retryAfterMs ≤ r) ∧
    ∃ b ∈ c.budgets, (evaluateBudget (readCounters counters nowMs b) b estimate
      nowMs).retryAfterMs = r := by
  have husages : ((c.budgets.zipIdx).map fun p =>
      evaluateBudget (reads.buckets.getD p.2 []) p.1 estimate nowMs) =
        c.budgets.map fun b => evaluateBudget (readCounters counters nowMs b) b estimate nowMs := by
    rw [hreads]
    apply ext_getElem (by simp)
    intro i hi hi'
    have hlt : i < c.budgets.length := by simpa using hi'
    simp [getElem_zipIdx, getD_eq_getElem?_getD, getElem?_eq_getElem hlt]
  simp only [decideReserve] at h
  rw [husages] at h
  by_cases hkey : (!reads.keyKnown && decide (c.maxKeys ≤ reads.keys)) = true
  · rw [if_pos hkey] at h
    cases h
  rw [if_neg hkey] at h
  generalize hmax : (c.budgets.map fun b => evaluateBudget (readCounters counters nowMs b) b
    estimate nowMs).foldl (fun m u => max m u.retryAfterMs) 0 = most at h
  have hspec := foldl_max_spec BudgetUsage.retryAfterMs (c.budgets.map fun b =>
    evaluateBudget (readCounters counters nowMs b) b estimate nowMs) 0
  rw [hmax] at hspec
  have hmost : 0 < most ∧ most = r := by
    rw [denial] at h
    by_cases hfull : c.maxActiveReservations ≤ reads.active
    · rw [if_pos hfull] at h
      cases h
    rw [if_neg hfull] at h
    by_cases hpos : 0 < most
    · rw [if_pos hpos] at h
      exact ⟨hpos, (Decision.denied.inj h).1⟩
    · rw [if_neg hpos] at h
      cases h
  obtain ⟨hpos, rfl⟩ := hmost
  refine ⟨?_, ?_⟩
  · intro b hb
    exact hspec.1 _ (mem_map_of_mem hb)
  · obtain ⟨u, hu, hval⟩ := hspec.2.1 hpos
    obtain ⟨b, hb, rfl⟩ := mem_map.mp hu
    exact ⟨b, hb, hval⟩

end Decisions

/-- At the instant of the hint every budget admits the estimate, and at every earlier one some
budget still denies it. -/
theorem shared_retry_hint_exact (c : ValkeySlidingWindowConfig) (counters : Counters)
    (reads : WindowReads) (estimate nowMs r remaining : ℕ)
    (hreads : reads.buckets = c.budgets.map (readCounters counters nowMs))
    (hnone : ∀ b ∈ c.budgets, NothingAfter counters nowMs b)
    (hfits : ∀ b ∈ c.budgets, Representable counters estimate nowMs b)
    (hestimate : ∀ b ∈ c.budgets, estimate ≤ b.capacity)
    (hdenied : decideReserve c reads estimate nowMs = .denied r remaining .windowCapacity) :
    (∀ b ∈ c.budgets, Admits counters estimate (nowMs + r) b) ∧
      ∀ t, nowMs ≤ t → t < nowMs + r → ∃ b ∈ c.budgets, ¬Admits counters estimate t b := by
  obtain ⟨hle, last, hlast, hretry⟩ := decideReserve_denied hreads hdenied
  obtain ⟨hbound, hexact⟩ := hint_exact (hnone last hlast) (hfits last hlast)
    (hestimate last hlast) hretry
  constructor
  · intro b hb
    have hb' := (hint_exact (hnone b hb) (hfits b hb) (hestimate b hb) rfl).2 (nowMs + r)
      (by omega) hbound
    have := hle b hb
    exact hb'.mpr (by omega)
  · intro t hfrom hbefore
    refine ⟨last, hlast, ?_⟩
    rw [hexact t hfrom (by omega)]
    omega

def eightTokens : Counters := fun width i =>
  if (width = 1000 ∧ i = 4) ∨ (width = 10000 ∧ i = 0) then some 8 else none

def twoBudgets : ValkeySlidingWindowConfig := ⟨[⟨60000, 10⟩, ⟨600000, 20⟩], 1000, 10, 10⟩

theorem nothingAfter_eightTokens (budget : Budget) : NothingAfter eightTokens 5000 budget := by
  intro i hi
  have hw := bucketMs_pos budget.windowMs
  rw [lastIndex, bucketIndex_eq hw] at hi
  rw [eightTokens, if_neg]
  rintro (⟨hwidth, rfl⟩ | ⟨-, rfl⟩)
  · rw [hwidth] at hi
    omega
  · exact absurd hi (Nat.not_lt_zero _)

theorem shared_retry_hint_exact_minute :
    (∀ b ∈ twoBudgets.budgets, Admits eightTokens 5 (5000 + 60000) b) ∧
      ∀ t, 5000 ≤ t → t < 5000 + 60000 → ∃ b ∈ twoBudgets.budgets, ¬Admits eightTokens 5 t b := by
  refine shared_retry_hint_exact twoBudgets eightTokens
    ⟨twoBudgets.budgets.map (readCounters eightTokens 5000), 0, 0, true⟩ 5 5000 60000 2 rfl
    (fun b _ => nothingAfter_eightTokens b) ?_ ?_ ?_
  · intro b hb
    rcases mem_cons.mp hb with rfl | hb
    · exact ⟨by decide +kernel, by decide +kernel, by decide +kernel⟩
    · obtain rfl := mem_singleton.mp hb
      exact ⟨by decide +kernel, by decide +kernel, by decide +kernel⟩
  · intro b hb
    rcases mem_cons.mp hb with rfl | hb
    · decide
    · obtain rfl := mem_singleton.mp hb
      decide
  · decide +kernel

def lastTokens : Counters := fun width i => if i = (u64Max - 1) / width then some 10 else none

def fiveTokens : Counters := fun width i =>
  if width = 1000 ∧ i = 0 then some 1 else if width = 1000 ∧ i = 4 then some 4 else none

def minuteBudget (capacity : ℕ) : ValkeySlidingWindowConfig := ⟨[⟨60000, capacity⟩], 1000, 10, 10⟩

/-- Where an instant or a sum is saturated, the hint is too short: at the end of the clock, and
with an estimate that does not fit next to the usage. -/
theorem saturated_hint_too_short :
    (decideReserve (minuteBudget 10)
        ⟨(minuteBudget 10).budgets.map (readCounters lastTokens (u64Max - 1)), 0, 0, true⟩ 1
        (u64Max - 1) = .denied 1 0 .windowCapacity ∧
      ¬Admits lastTokens 1 (u64Max - 1 + 1) ⟨60000, 10⟩) ∧
    (decideReserve (minuteBudget (u64Max - 1))
        ⟨(minuteBudget (u64Max - 1)).budgets.map (readCounters fiveTokens 5000), 0, 0, true⟩
        (u64Max - 1) 5000 = .denied 56000 (u64Max - 6) .windowCapacity ∧
      ¬Admits fiveTokens (u64Max - 1) (5000 + 56000) ⟨60000, u64Max - 1⟩) := by
  refine ⟨⟨by decide +kernel, ?_⟩, by decide +kernel, ?_⟩
  · unfold Admits
    decide +kernel
  · unfold Admits
    decide +kernel

end RetryHints
