import PraxisAi.ReservationLedger
import PraxisAi.SaturatingArithmetic

/-! # The exact local sliding-window ledger

`token_rate_limit/ledger.rs`: one key keeps the settled usage still inside the longest
window and the reservations not yet reconciled. A reservation that times out is charged
at its estimate, stamped with its admission time. Amounts and times are `u64` values. -/
namespace SlidingWindowLedger

open List hiding erase_of_not_mem
open KeyedMaps ReservationLedger SaturatingArithmetic

structure Budget where
  windowMs : ℕ
  capacity : ℕ
  deriving DecidableEq

structure LedgerConfig where
  budgets : List Budget
  reservationTimeoutMs : ℕ
  maxKeys : ℕ
  maxKeyLength : ℕ
  maxActiveReservations : ℕ
  deriving DecidableEq

def LedgerConfig.validate (c : LedgerConfig) : Except String Unit :=
  if c.budgets.isEmpty then
    .error "at least one budget is required"
  else if c.budgets.any fun b => b.windowMs == 0 || b.capacity == 0 then
    .error "budget window and capacity must be positive"
  else if (c.budgets.zip c.budgets.tail).any fun w => w.1.windowMs == w.2.windowMs then
    .error "budget windows must be unique"
  else if c.reservationTimeoutMs == 0 then
    .error "reservation timeout must be positive"
  else if c.maxKeys == 0 || c.maxKeyLength == 0 || c.maxActiveReservations == 0 then
    .error "ledger bounds must be positive"
  else .ok ()

def LedgerConfig.bounds (c : LedgerConfig) : Bounds :=
  ⟨c.reservationTimeoutMs, c.maxKeys, c.maxKeyLength, c.maxActiveReservations⟩

def LedgerConfig.maxWindow (c : LedgerConfig) : ℕ := (c.budgets.map (·.windowMs)).max?.getD 0

def LedgerConfig.limit (c : LedgerConfig) : ℕ := (c.budgets.map (·.capacity)).min?.getD 0

structure Usage where
  atMs : ℕ
  tokens : ℕ
  deriving DecidableEq

structure KeyState where
  settled : List Usage
  active : ActiveMap

def KeyState.default : KeyState := ⟨[], ∅⟩

/-- An expired reservation leaves the active map and is charged at its estimate. -/
def KeyState.chargeExpired (s : KeyState) (id : ℕ) : KeyState :=
  match s.active.lookup id with
  | some r => ⟨s.settled ++ [⟨r.createdAtMs, r.estimate⟩], s.active.erase id⟩
  | none => s

/-- Only the front of the queue is dropped: entries are pushed in settlement order but
stamped with admission times, so an old entry may wait behind a fresh one. -/
def KeyState.popAged (c : LedgerConfig) (nowMs : ℕ) (s : KeyState) : KeyState :=
  { s with settled := s.settled.dropWhile fun e => c.maxWindow ≤ nowMs - e.atMs }

def KeyState.reap (c : LedgerConfig) (order : IterOrder) (nowMs : ℕ) (s : KeyState) :
    KeyState × List ℕ :=
  let expired := expiredIds order nowMs c.reservationTimeoutMs s.active
  ((expired.foldl KeyState.chargeExpired s).popAged c nowMs, expired)

def KeyState.usageInWindow (s : KeyState) (nowMs windowMs : ℕ) : ℕ :=
  let settled := (s.settled.filter fun e => nowMs - e.atMs < windowMs).foldl
    (fun sum e => satAdd u64Max sum e.tokens) 0
  let active := s.active.entries.foldl (fun sum e => satAdd u64Max sum e.2.estimate) 0
  satAdd u64Max settled active

def KeyState.waits (s : KeyState) (nowMs : ℕ) (b : Budget) : List ℕ :=
  s.settled.filterMap fun e =>
    let expiry := satAdd u64Max e.atMs b.windowMs
    if nowMs < expiry then some (expiry - nowMs) else none

def KeyState.retryAfterMs (c : LedgerConfig) (s : KeyState) (nowMs : ℕ) : ℕ :=
  max ((c.budgets.flatMap (s.waits nowMs)).max?.getD c.reservationTimeoutMs)
    c.reservationTimeoutMs

def KeyState.isEmpty (s : KeyState) : Bool := s.active.entries.isEmpty && s.settled.isEmpty

structure Tally where
  maxUsage : ℕ
  remaining : ℕ
  exhausted : Bool

def Tally.add (s : KeyState) (nowMs estimate : ℕ) (t : Tally) (b : Budget) : Tally :=
  let usage := s.usageInWindow nowMs b.windowMs
  let after := satAdd u64Max usage estimate
  ⟨max t.maxUsage after, min t.remaining (b.capacity - usage), t.exhausted || b.capacity < after⟩

def KeyState.judge (c : LedgerConfig) (nowMs estimate : ℕ) (s : KeyState) : Verdict :=
  let t := c.budgets.foldl (Tally.add s nowMs estimate) ⟨0, c.limit, false⟩
  { remaining := t.remaining
    exhausted := if t.exhausted then some (s.retryAfterMs c nowMs) else none
    usageAfter := t.maxUsage
    remainingAfter := t.remaining - estimate }

def KeyState.hold (id : ℕ) (r : ActiveReservation) (s : KeyState) : KeyState :=
  { s with active := s.active.insert id r }

def KeyState.release (id : ℕ) (s : KeyState) : KeyState := { s with active := s.active.erase id }

/-- The end of `reconcile`: the actual usage is pushed at the admission time, then `reap`. -/
def KeyState.settle (c : LedgerConfig) (order : IterOrder) (nowMs : ℕ) (r : ActiveReservation)
    (actual : ℕ) (s : KeyState) : KeyState × List ℕ :=
  KeyState.reap c order nowMs { s with settled := s.settled ++ [⟨r.createdAtMs, actual⟩] }

theorem chargeExpired_active (s : KeyState) (id : ℕ) :
    (s.chargeExpired id).active = s.active.erase id := by
  unfold KeyState.chargeExpired
  split
  · rfl
  · next h => exact (erase_of_not_mem (lookup_eq_none_iff.mp h)).symm

theorem foldl_chargeExpired_active (ids : List ℕ) (s : KeyState) :
    (ids.foldl KeyState.chargeExpired s).active = eraseAll ids s.active := by
  induction ids generalizing s with
  | nil => rfl
  | cons id ids ih => rw [foldl_cons, ih, chargeExpired_active, eraseAll_cons]

theorem foldl_chargeExpired_settled {ids : List ℕ} (h : ids.Nodup) (s : KeyState) :
    (ids.foldl KeyState.chargeExpired s).settled = s.settled ++ ids.filterMap fun id =>
      (s.active.lookup id).map fun r => ⟨r.createdAtMs, r.estimate⟩ := by
  induction ids generalizing s with
  | nil => simp
  | cons id ids ih =>
    obtain ⟨hid, hids⟩ := nodup_cons.mp h
    -- the charge of `id` takes no other reservation away
    have hrest : ids.filterMap (fun other => ((s.active.erase id).lookup other).map fun r =>
          (⟨r.createdAtMs, r.estimate⟩ : Usage)) =
        ids.filterMap fun other => (s.active.lookup other).map fun r =>
          ⟨r.createdAtMs, r.estimate⟩ := by
      refine filterMap_congr fun other hother => ?_
      rw [AList.lookup_erase_ne (ne_of_mem_of_not_mem hother hid)]
    rw [foldl_cons, ih hids, chargeExpired_active, hrest, KeyState.chargeExpired]
    cases hr : s.active.lookup id <;> simp [hr]

theorem reap_active (c : LedgerConfig) (o : IterOrder) (t : ℕ) (s : KeyState) :
    (s.reap c o t).1.active = eraseAll (s.reap c o t).2 s.active :=
  foldl_chargeExpired_active _ _

theorem active_of_isEmpty (s : KeyState) (h : s.isEmpty = true) : s.active = ∅ := by
  simp only [KeyState.isEmpty, Bool.and_eq_true, List.isEmpty_iff] at h
  exact AList.ext h.1

theorem active_default : KeyState.default.active = ∅ := rfl

theorem active_hold (id : ℕ) (r : ActiveReservation) (s : KeyState) :
    (s.hold id r).active = s.active.insert id r := rfl

theorem active_release (id : ℕ) (s : KeyState) : (s.release id).active = s.active.erase id := rfl

theorem reap_expired (c : LedgerConfig) (o : IterOrder) (t : ℕ) (s : KeyState) :
    (s.reap c o t).2.Nodup ∧ ∀ id ∈ (s.reap c o t).2, id ∈ s.active :=
  expiredIds_active o t _ s.active

theorem settle_expired (c : LedgerConfig) (o : IterOrder) (t : ℕ) (r : ActiveReservation)
    (a : ℕ) (s : KeyState) :
    (s.settle c o t r a).2.Nodup ∧ ∀ id ∈ (s.settle c o t r a).2, id ∈ s.active :=
  expiredIds_active o t _ s.active

def policy (c : LedgerConfig) : KeyPolicy KeyState where
  fresh := KeyState.default
  active := KeyState.active
  touch := KeyState.reap c
  judge := KeyState.judge c
  hold := KeyState.hold
  release := KeyState.release
  settle := KeyState.settle c
  isEmpty := KeyState.isEmpty
  active_fresh := active_default
  active_touch := reap_active c
  touch_expired := reap_expired c
  active_hold := active_hold
  active_release := active_release
  active_settle o t r a s :=
    reap_active c o t { s with settled := s.settled ++ [⟨r.createdAtMs, a⟩] }
  settle_expired := settle_expired c
  active_of_isEmpty := active_of_isEmpty

abbrev Ledger := ReservationLedger.Ledger KeyState

def reserve (c : LedgerConfig) (order : IterOrder) (L : Ledger) (key : String)
    (estimate nowMs : ℕ) : Ledger × Decision :=
  ReservationLedger.reserve (policy c) c.bounds order L key estimate nowMs

def reconcile (c : LedgerConfig) (order : IterOrder) (L : Ledger) (id : ℕ) (actual : Option ℕ)
    (nowMs : ℕ) : Ledger × Settlement :=
  ReservationLedger.reconcile (policy c) order L id actual nowMs

def cleanup (c : LedgerConfig) (L : Ledger) (nowMs : ℕ) (scan : List (IterOrder × String)) :
    Ledger × ℕ :=
  ReservationLedger.cleanup (policy c) L nowMs scan

def step (c : LedgerConfig) : Ledger → Call → Ledger × Reply :=
  ReservationLedger.step (policy c) c.bounds

/-- Settled tokens inside the window plus all active estimates, without saturation. -/
def KeyState.windowTotal (s : KeyState) (nowMs windowMs : ℕ) : ℕ :=
  ((s.settled.filter fun e => nowMs - e.atMs < windowMs).map Usage.tokens).sum +
    sumBy ActiveReservation.estimate s.active

theorem usageInWindow_eq (s : KeyState) (t w : ℕ) :
    s.usageInWindow t w = min (s.windowTotal t w) u64Max := by
  unfold KeyState.usageInWindow KeyState.windowTotal sumBy
  simp only [foldl_satAdd, satAdd_min]

theorem windowTotal_later (s : KeyState) {t u : ℕ} (h : t ≤ u) (w : ℕ) :
    s.windowTotal u w ≤ s.windowTotal t w := by
  unfold KeyState.windowTotal
  have := sum_filter_mono Usage.tokens (p := fun e => u - e.atMs < w)
    (q := fun e => t - e.atMs < w) s.settled
    (fun e he => by simp only [decide_eq_true_eq] at *; omega)
  omega

theorem windowTotal_push_le (settled : List Usage) (active : ActiveMap) (e : Usage) (t w : ℕ) :
    KeyState.windowTotal ⟨settled ++ [e], active⟩ t w ≤
      KeyState.windowTotal ⟨settled, active⟩ t w + e.tokens := by
  simp only [KeyState.windowTotal, filter_append, map_append, sum_append]
  have := sum_filter_le Usage.tokens (fun e : Usage => t - e.atMs < w) [e]
  simp only [map_cons, map_nil, sum_cons, sum_nil] at this
  omega

theorem chargeExpired_total_le (s : KeyState) (id t w : ℕ) :
    (s.chargeExpired id).windowTotal t w ≤ s.windowTotal t w := by
  unfold KeyState.chargeExpired
  split
  · next r hr =>
    have hpush := windowTotal_push_le s.settled (s.active.erase id) ⟨r.createdAtMs, r.estimate⟩ t w
    have hsum := sumBy_erase ActiveReservation.estimate hr
    simp only [KeyState.windowTotal] at *
    omega
  · exact le_rfl

theorem popAged_total_le (c : LedgerConfig) (s : KeyState) (t w : ℕ) :
    (s.popAged c t).windowTotal t w ≤ s.windowTotal t w := by
  simp only [KeyState.windowTotal, KeyState.popAged]
  have hsub := ((dropWhile_sublist (l := s.settled)
    (fun e => decide (c.maxWindow ≤ t - e.atMs))).filter (fun e => t - e.atMs < w)).map Usage.tokens
  have := hsub.sum_le_sum (fun _ _ => Nat.zero_le _)
  omega

theorem reap_total_le (c : LedgerConfig) (o : IterOrder) (t w : ℕ) (s : KeyState) :
    (s.reap c o t).1.windowTotal t w ≤ s.windowTotal t w := by
  have charged : ∀ ids : List ℕ, ∀ s : KeyState,
      (ids.foldl KeyState.chargeExpired s).windowTotal t w ≤ s.windowTotal t w := by
    intro ids
    induction ids with
    | nil => exact fun _ => le_rfl
    | cons id ids ih => exact fun s => (ih _).trans (chargeExpired_total_le s id t w)
  exact (popAged_total_le c _ t w).trans (charged _ s)

theorem settle_total_le (c : LedgerConfig) (o : IterOrder) (t w : ℕ) {s : KeyState} {id : ℕ}
    {r : ActiveReservation} {actual : ℕ} (hr : s.active.lookup id = some r)
    (ha : actual ≤ r.estimate) :
    ((s.release id).settle c o t r actual).1.windowTotal t w ≤ s.windowTotal t w := by
  refine (reap_total_le c o t w _).trans ?_
  have hpush := windowTotal_push_le s.settled (s.active.erase id) ⟨r.createdAtMs, actual⟩ t w
  have hsum := sumBy_erase ActiveReservation.estimate hr
  simp only [KeyState.windowTotal, KeyState.release] at *
  omega

theorem hold_total_le (s : KeyState) (id : ℕ) (r : ActiveReservation) (t w : ℕ) :
    (s.hold id r).windowTotal t w ≤ s.windowTotal t w + r.estimate := by
  have := sumBy_erase_le ActiveReservation.estimate s.active id
  simp only [KeyState.windowTotal, KeyState.hold, sumBy_insert]
  omega

theorem foldl_tally_exhausted (s : KeyState) (t estimate : ℕ) (bs : List Budget) (y : Tally) :
    (bs.foldl (Tally.add s t estimate) y).exhausted = false ↔ y.exhausted = false ∧
      ∀ b ∈ bs, satAdd u64Max (s.usageInWindow t b.windowMs) estimate ≤ b.capacity := by
  induction bs generalizing y with
  | nil => simp
  | cons b bs ih =>
    rw [foldl_cons, ih]
    simp only [Tally.add, Bool.or_eq_false_iff, decide_eq_false_iff_not, not_lt, and_assoc,
      List.forall_mem_cons]

theorem judge_fits {c : LedgerConfig} {t estimate : ℕ} {s : KeyState} :
    (s.judge c t estimate).exhausted = none ↔
      ∀ b ∈ c.budgets, satAdd u64Max (s.usageInWindow t b.windowMs) estimate ≤ b.capacity := by
  have h := foldl_tally_exhausted s t estimate c.budgets ⟨0, c.limit, false⟩
  rw [eq_self_iff_true, true_and] at h
  rw [← h, KeyState.judge]
  cases (c.budgets.foldl (Tally.add s t estimate) ⟨0, c.limit, false⟩).exhausted <;> simp

def WithinBudgets (c : LedgerConfig) (nowMs : ℕ) (s : KeyState) : Prop :=
  ∀ b ∈ c.budgets, s.usageInWindow nowMs b.windowMs ≤ b.capacity

theorem withinBudgets_of_total_le {c : LedgerConfig} {t u : ℕ} {s s' : KeyState}
    (h : WithinBudgets c t s) (hle : ∀ w, s'.windowTotal u w ≤ s.windowTotal t w) :
    WithinBudgets c u s' := by
  intro b hb
  have hs := h b hb
  have := hle b.windowMs
  rw [usageInWindow_eq] at *
  omega

theorem withinBudgets_invariant (c : LedgerConfig) :
    KeyInvariant (policy c) (WithinBudgets c) (fun r actual => actual ≤ r.estimate) where
  fresh t b _ := by
    rw [usageInWindow_eq]
    simp [policy, KeyState.default, KeyState.windowTotal]
  later htu h := withinBudgets_of_total_le h (windowTotal_later _ htu)
  touch o h := withinBudgets_of_total_le h (fun w => reap_total_le c o _ w _)
  hold := by
    intro t s id estimate _ hx b hb
    have hfit := judge_fits.mp hx b hb
    have hadd := hold_total_le s id ⟨estimate, t⟩ t b.windowMs
    simp only [satAdd, usageInWindow_eq, policy] at *
    omega
  settle o _ _ _ h hr ha := withinBudgets_of_total_le h (fun w => settle_total_le c o _ w hr ha)

/-- In every run in which no reservation is settled above its estimate, no key ever uses
more of a window than that window's budget, saturated as the code reads it or exactly. -/
theorem run_within_budgets (c : LedgerConfig) (calls : List Call)
    (ordered : TimedRuns.Ordered Call.nowMs 0 calls)
    (settles : TimedRuns.Along (step c)
      (SettlesWith (policy c) fun r actual => actual ≤ r.estimate) Ledger.new calls)
    (key : String) (s : KeyState)
    (hs : (TimedRuns.final (step c) Ledger.new calls).keys.lookup key = some s)
    (b : Budget) (hb : b ∈ c.budgets) (now : ℕ)
    (hnow : TimedRuns.lastTime Call.nowMs 0 calls ≤ now) :
    s.usageInWindow now b.windowMs ≤ b.capacity ∧
      (b.capacity < u64Max → s.windowTotal now b.windowMs ≤ b.capacity) := by
  have hrun := (withinBudgets_invariant c).run ordered settles key s hs
  have h := (withinBudgets_invariant c).later hnow hrun b hb
  refine ⟨h, fun hcap => ?_⟩
  rw [usageInWindow_eq] at h
  omega

theorem run_within_budgets_two_windows :
    let c : LedgerConfig := ⟨[⟨100, 80⟩, ⟨1000, 90⟩], 50, 4, 8, 4⟩
    let calls : List Call := [.reserve .asStored "k" 60 0, .reconcile .asStored 1 (some 40) 10,
      .reserve .asStored "k" 40 20, .cleanup 120 [(.asStored, "k")]]
    let s : KeyState := ⟨[⟨0, 40⟩, ⟨20, 40⟩], ∅⟩
    c.validate = .ok () ∧ TimedRuns.Ordered Call.nowMs 0 calls ∧
      (TimedRuns.final (step c) Ledger.new calls).keys.lookup "k" = some s ∧
      s.usageInWindow 120 1000 ≤ 90 ∧ (90 < u64Max → s.windowTotal 120 1000 ≤ 90) := by
  refine ⟨rfl, by decide, rfl, ?_⟩
  refine run_within_budgets ⟨[⟨100, 80⟩, ⟨1000, 90⟩], 50, 4, 8, 4⟩
    [.reserve .asStored "k" 60 0, .reconcile .asStored 1 (some 40) 10,
      .reserve .asStored "k" 40 20, .cleanup 120 [(.asStored, "k")]]
    (by decide) ⟨trivial, ?_, trivial, trivial, trivial⟩ "k" _ rfl ⟨1000, 90⟩ (by decide) 120
    (by decide)
  intro key s r hkey hs hr
  cases Option.some.inj hkey
  cases Option.some.inj hs
  cases Option.some.inj hr
  decide

section Windows

def WindowsDistinct (c : LedgerConfig) : Prop :=
  ∀ (i j : ℕ) (b b' : Budget), c.budgets[i]? = some b → c.budgets[j]? = some b' → i ≠ j →
    b.windowMs ≠ b'.windowMs

/-- Between two budgets with one window there are only budgets with that window. -/
def EqualWindowsTogether (c : LedgerConfig) : Prop :=
  ∀ (i j k : ℕ) (a b d : Budget), i < j → j < k → c.budgets[i]? = some a →
    c.budgets[j]? = some b → c.budgets[k]? = some d → a.windowMs = d.windowMs →
    b.windowMs = a.windowMs

theorem neighbours_differ {c : LedgerConfig} (h : c.validate = .ok ()) {i : ℕ} {a b : Budget}
    (ha : c.budgets[i]? = some a) (hb : c.budgets[i + 1]? = some b) : a.windowMs ≠ b.windowMs := by
  unfold LedgerConfig.validate at h
  split_ifs at h with _ _ hneighbours
  intro heq
  apply hneighbours
  rw [any_eq_true]
  refine ⟨(a, b), mem_iff_getElem?.mpr ⟨i, ?_⟩, by simpa using heq⟩
  rw [getElem?_zip_eq_some, getElem?_tail]
  exact ⟨ha, hb⟩

theorem equalWindowsTogether_of_ordered {c : LedgerConfig}
    (h : c.budgets.Pairwise (fun a b => a.windowMs ≤ b.windowMs) ∨
      c.budgets.Pairwise (fun a b => b.windowMs ≤ a.windowMs)) : EqualWindowsTogether c := by
  intro i j k a b d hij hjk ha hb hd heq
  obtain ⟨hi, rfl⟩ := List.getElem?_eq_some_iff.mp ha
  obtain ⟨hj, rfl⟩ := List.getElem?_eq_some_iff.mp hb
  obtain ⟨hk, rfl⟩ := List.getElem?_eq_some_iff.mp hd
  rcases h with h | h
  · have hlow := pairwise_iff_getElem.mp h i j hi hj hij
    have hhigh := pairwise_iff_getElem.mp h j k hj hk hjk
    omega
  · have hlow := pairwise_iff_getElem.mp h i j hi hj hij
    have hhigh := pairwise_iff_getElem.mp h j k hj hk hjk
    omega

/-- The windows of a valid configuration are distinct exactly when equal windows stand together,
which they do where the budgets are ordered by their windows. -/
theorem valid_windows_distinct_iff (c : LedgerConfig) (h : c.validate = .ok ()) :
    (WindowsDistinct c ↔ EqualWindowsTogether c) ∧
      ((c.budgets.Pairwise (fun a b => a.windowMs ≤ b.windowMs) ∨
        c.budgets.Pairwise (fun a b => b.windowMs ≤ a.windowMs)) → WindowsDistinct c) := by
  have hiff : WindowsDistinct c ↔ EqualWindowsTogether c := by
    constructor
    · intro hdistinct i j k a b d hij hjk ha _ hd heq
      exact absurd heq (hdistinct i k a d ha hd (Nat.ne_of_lt (Nat.lt_trans hij hjk)))
    · intro htogether
      -- The later of two equal windows is no neighbour, so the next one stands between them.
      have hlater : ∀ (i k : ℕ) (a d : Budget), i < k → c.budgets[i]? = some a →
          c.budgets[k]? = some d → a.windowMs ≠ d.windowMs := by
        intro i k a d hik ha hd heq
        obtain ⟨hk, -⟩ := List.getElem?_eq_some_iff.mp hd
        have hnext : c.budgets[i + 1]? = some c.budgets[i + 1] :=
          getElem?_eq_getElem (by omega)
        have hdiffer := neighbours_differ h ha hnext
        rcases Nat.eq_or_lt_of_le (Nat.succ_le_of_lt hik) with hadjacent | hbetween
        · subst hadjacent
          exact neighbours_differ h ha hd heq
        · exact hdiffer (htogether i (i + 1) k _ _ _ (Nat.lt_succ_self i) hbetween ha hnext hd
            heq).symm
      intro i j b b' hb hb' hne
      rcases Nat.lt_or_gt_of_ne hne with hlt | hgt
      · exact hlater i j b b' hlt hb hb'
      · exact (hlater j i b' b hgt hb' hb).symm
  exact ⟨hiff, fun hordered => hiff.mpr (equalWindowsTogether_of_ordered hordered)⟩

theorem ordered_windows_distinct :
    WindowsDistinct ⟨[⟨1000, 10⟩, ⟨2000, 20⟩, ⟨3000, 25⟩], 50, 4, 8, 4⟩ :=
  (valid_windows_distinct_iff _ rfl).2 (.inl (by decide))

/-- A window that comes back after another one is not noticed. -/
theorem repeated_window_accepted :
    (⟨[⟨1000, 10⟩, ⟨2000, 20⟩, ⟨1000, 30⟩], 50, 4, 8, 4⟩ : LedgerConfig).validate = .ok () ∧
      ¬WindowsDistinct ⟨[⟨1000, 10⟩, ⟨2000, 20⟩, ⟨1000, 30⟩], 50, 4, 8, 4⟩ :=
  ⟨rfl, fun h => h 0 2 _ _ rfl rfl (by decide) rfl⟩

end Windows

end SlidingWindowLedger
