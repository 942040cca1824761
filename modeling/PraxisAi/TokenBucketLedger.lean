import PraxisAi.LedgerViews
import PraxisAi.SaturatingArithmetic
import PraxisAi.PotentialBounds
import Mathlib.Algebra.Order.Field.Basic
import Mathlib.Data.Rat.Floor
import Mathlib.Tactic.Linarith

/-! # The in-process token bucket

`token_rate_limit/token_bucket_ledger.rs`: one key keeps a balance that refills lazily and is
debited at admission. Balances and the refill rate are exact rationals where the code has
`f64`; a cast to `u64` truncates and saturates. -/
namespace TokenBucketLedger

open KeyedMaps ReservationLedger LedgerViews SaturatingArithmetic PotentialBounds

section Accrual

variable {K : Type*} [Field K] [LinearOrder K]

/-- The lazily refilled balance: accruing in several steps is accruing once. -/
def accrue (cap rate balance elapsed : K) : K := min (balance + elapsed * rate) cap

variable {cap rate balance a b : K}

theorem accrue_le_cap : accrue cap rate balance a ≤ cap := min_le_right _ _

theorem accrue_zero (h : balance ≤ cap) : accrue cap rate balance 0 = balance := by
  simp [accrue, h]

variable [IsStrictOrderedRing K]

theorem accrue_full (hr : 0 ≤ rate) (ha : 0 ≤ a) (h : cap ≤ balance) :
    accrue cap rate balance a = cap := by
  have := mul_nonneg ha hr
  exact min_eq_right (by linarith)

theorem le_accrue (hr : 0 ≤ rate) (ha : 0 ≤ a) (h : balance ≤ cap) :
    balance ≤ accrue cap rate balance a := by
  have := mul_nonneg ha hr
  exact le_min (by linarith) h

theorem accrue_le_add (hr : 0 ≤ rate) (hab : a ≤ b) :
    accrue cap rate balance b ≤ accrue cap rate balance a + (b - a) * rate := by
  have hba := mul_nonneg (sub_nonneg.mpr hab) hr
  simp only [accrue]
  rcases le_total (balance + a * rate) cap with hc | hc
  · rw [min_eq_left hc]
    exact (min_le_left _ _).trans (by linarith [sub_mul b a rate])
  · rw [min_eq_right hc]
    exact (min_le_right _ _).trans (by linarith)

end Accrual

def maxF64SafeInteger : ℕ := 2 ^ 53

def maxCapacityRefillRateRatioSecs : ℚ := 1000000000

structure TokenBucketConfig where
  capacity : ℕ
  refillRate : ℚ
  reservationTimeoutMs : ℕ
  maxKeys : ℕ
  maxKeyLength : ℕ
  maxActiveReservations : ℕ
  deriving DecidableEq

def validateCapacityAndRefillRate (capacity : ℕ) (refillRate : ℚ) : Except String Unit :=
  if capacity = 0 then
    .error "capacity must be positive"
  else if maxF64SafeInteger < capacity then
    .error "capacity must not exceed 9007199254740992 (2^53)"
  else if refillRate ≤ 0 then
    .error "refill_rate must be a positive, finite number"
  else if maxCapacityRefillRateRatioSecs < capacity / refillRate then
    .error ("capacity / refill_rate must not exceed 1000000000 seconds " ++
      "(time to fill an empty bucket)")
  else .ok ()

def TokenBucketConfig.validate (c : TokenBucketConfig) : Except String Unit := do
  validateCapacityAndRefillRate c.capacity c.refillRate
  if c.reservationTimeoutMs = 0 then
    .error "reservation timeout must be positive"
  else if c.maxKeys = 0 ∨ c.maxKeyLength = 0 ∨ c.maxActiveReservations = 0 then
    .error "ledger bounds must be positive"
  else .ok ()

def TokenBucketConfig.bounds (c : TokenBucketConfig) : Bounds :=
  ⟨c.reservationTimeoutMs, c.maxKeys, c.maxKeyLength, c.maxActiveReservations⟩

def asU64 (x : ℚ) : ℕ := min ⌊x⌋₊ u64Max

structure BucketState where
  tokens : ℚ
  lastRefillMs : ℕ
  active : ActiveMap

def BucketState.new (c : TokenBucketConfig) : BucketState := ⟨c.capacity, 0, ∅⟩

def BucketState.refill (c : TokenBucketConfig) (nowMs : ℕ) (s : BucketState) : BucketState :=
  let elapsedMs := nowMs - s.lastRefillMs
  if 0 < elapsedMs then
    { s with
      tokens := accrue c.capacity c.refillRate s.tokens (elapsedMs / 1000)
      lastRefillMs := nowMs }
  else s

/-- Expired reservations leave the active map; they were charged when they were admitted. -/
def BucketState.reap (c : TokenBucketConfig) (order : IterOrder) (nowMs : ℕ) (s : BucketState) :
    BucketState × List ℕ :=
  let expired := expiredIds order nowMs c.reservationTimeoutMs s.active
  ({ s with active := eraseAll expired s.active }, expired)

def BucketState.isEmpty (c : TokenBucketConfig) (s : BucketState) : Bool :=
  s.active.entries.isEmpty && decide ((c.capacity : ℚ) ≤ s.tokens)

/-- The delay of a denial: until the deficit has been refilled, at least a millisecond. -/
def retryAfterMs (refillRate tokens : ℚ) (estimate : ℕ) : ℕ :=
  asU64 (max ⌈(estimate - tokens) / refillRate * 1000⌉ 1)

def BucketState.judge (c : TokenBucketConfig) (_nowMs estimate : ℕ) (s : BucketState) :
    Verdict where
  remaining := asU64 s.tokens
  exhausted :=
    if s.tokens < estimate then some (retryAfterMs c.refillRate s.tokens estimate) else none
  usageAfter := asU64 (max (c.capacity - (s.tokens - estimate)) 0)
  remainingAfter := asU64 (s.tokens - estimate)

def BucketState.hold (id : ℕ) (r : ActiveReservation) (s : BucketState) : BucketState :=
  { s with tokens := s.tokens - r.estimate, active := s.active.insert id r }

def BucketState.release (id : ℕ) (s : BucketState) : BucketState :=
  { s with active := s.active.erase id }

/-- A refund is capped at the capacity, an overage floored at zero. -/
def BucketState.credit (c : TokenBucketConfig) (refund overage : ℕ) (s : BucketState) :
    BucketState :=
  if 0 < refund then { s with tokens := min (s.tokens + refund) c.capacity }
  else if 0 < overage then { s with tokens := max (s.tokens - overage) 0 }
  else s

/-- The end of `reconcile`. Unlike the sliding window's, it does not reap. -/
def BucketState.settle (c : TokenBucketConfig) (_order : IterOrder) (nowMs : ℕ)
    (r : ActiveReservation) (actual : ℕ) (s : BucketState) : BucketState × List ℕ :=
  ((s.refill c nowMs).credit c (r.estimate - actual) (actual - r.estimate), [])

@[simp] theorem refill_active (c : TokenBucketConfig) (t : ℕ) (s : BucketState) :
    (s.refill c t).active = s.active := by
  simp only [BucketState.refill]
  split <;> rfl

@[simp] theorem credit_active (c : TokenBucketConfig) (refund overage : ℕ) (s : BucketState) :
    (s.credit c refund overage).active = s.active := by
  simp only [BucketState.credit]
  split
  · rfl
  · split <;> rfl

theorem active_of_isEmpty {c : TokenBucketConfig} {s : BucketState}
    (h : s.isEmpty c = true) : s.active = ∅ := by
  simp only [BucketState.isEmpty, Bool.and_eq_true, List.isEmpty_iff] at h
  exact AList.ext h.1

def policy (c : TokenBucketConfig) : KeyPolicy BucketState where
  fresh := BucketState.new c
  active := BucketState.active
  touch order nowMs s := (s.refill c nowMs).reap c order nowMs
  judge := BucketState.judge c
  hold := BucketState.hold
  release := BucketState.release
  settle := BucketState.settle c
  isEmpty := BucketState.isEmpty c
  active_fresh := rfl
  active_touch o t s := by simp only [BucketState.reap, refill_active]
  touch_expired o t s := by
    simpa only [BucketState.reap, refill_active] using expiredIds_active o t _ s.active
  active_hold _ _ _ := rfl
  active_release _ _ := rfl
  active_settle o t r a s := by
    simp only [BucketState.settle, credit_active, refill_active, eraseAll_nil]
  settle_expired _ _ _ _ _ := ⟨List.nodup_nil, fun _ h => absurd h List.not_mem_nil⟩
  active_of_isEmpty _ h := active_of_isEmpty h

abbrev Ledger := ReservationLedger.Ledger BucketState

def reserve (c : TokenBucketConfig) (order : IterOrder) (L : Ledger) (key : String)
    (estimate nowMs : ℕ) : Ledger × Decision :=
  ReservationLedger.reserve (policy c) c.bounds order L key estimate nowMs

def reconcile (c : TokenBucketConfig) (order : IterOrder) (L : Ledger) (id : ℕ)
    (actual : Option ℕ) (nowMs : ℕ) : Ledger × Settlement :=
  ReservationLedger.reconcile (policy c) order L id actual nowMs

def cleanup (c : TokenBucketConfig) (L : Ledger) (nowMs : ℕ)
    (scan : List (IterOrder × String)) : Ledger × ℕ :=
  ReservationLedger.cleanup (policy c) L nowMs scan

def step (c : TokenBucketConfig) : Ledger → Call → Ledger × Reply :=
  ReservationLedger.step (policy c) c.bounds

theorem validateCapacityAndRefillRate_ok {capacity : ℕ} {refillRate : ℚ}
    (h : validateCapacityAndRefillRate capacity refillRate = .ok ()) :
    0 < capacity ∧ capacity ≤ maxF64SafeInteger ∧ 0 < refillRate := by
  simp only [validateCapacityAndRefillRate] at h
  split_ifs at h with hcap hbig hrate hratio
  exact ⟨Nat.pos_of_ne_zero hcap, not_lt.mp hbig, not_le.mp hrate⟩

theorem validate_capacity {c : TokenBucketConfig} (h : c.validate = .ok ()) :
    validateCapacityAndRefillRate c.capacity c.refillRate = .ok () := by
  rcases hv : validateCapacityAndRefillRate c.capacity c.refillRate with e | ⟨⟩
  · simp only [TokenBucketConfig.validate, hv] at h
    cases h
  · rfl

theorem refillRate_pos {c : TokenBucketConfig} (h : c.validate = .ok ()) : 0 < c.refillRate :=
  (validateCapacityAndRefillRate_ok (validate_capacity h)).2.2

def BucketState.balance (c : TokenBucketConfig) (nowMs : ℕ) (s : BucketState) : ℚ :=
  (s.refill c nowMs).tokens

structure BucketState.Valid (c : TokenBucketConfig) (s : BucketState) : Prop where
  nonneg : 0 ≤ s.tokens
  capped : s.tokens ≤ c.capacity

section Balance

variable {c : TokenBucketConfig} {s : BucketState} {t u : ℕ}

theorem balance_eq (hs : s.Valid c) :
    s.balance c t =
      accrue (c.capacity : ℚ) c.refillRate s.tokens ((t - s.lastRefillMs : ℕ) / 1000) := by
  simp only [BucketState.balance, BucketState.refill]
  split
  · rfl
  · next h =>
    have hzero : t - s.lastRefillMs = 0 := by omega
    rw [hzero, Nat.cast_zero, zero_div, accrue_zero hs.capped]

theorem refill_valid (hr : 0 < c.refillRate) (hs : s.Valid c) : (s.refill c t).Valid c := by
  have hb := balance_eq (t := t) hs
  have helapsed : (0 : ℚ) ≤ ((t - s.lastRefillMs : ℕ) : ℚ) / 1000 := by positivity
  constructor
  · exact hs.nonneg.trans ((le_accrue hr.le helapsed hs.capped).trans hb.ge)
  · exact hb.le.trans accrue_le_cap

theorem balance_grows (hr : 0 < c.refillRate) (hs : s.Valid c) (htu : t ≤ u) :
    s.balance c u ≤ s.balance c t + c.refillRate / 1000 * ((u - t : ℕ) : ℚ) := by
  have hsub : u - s.lastRefillMs ≤ t - s.lastRefillMs + (u - t) := by omega
  have hmono : ((t - s.lastRefillMs : ℕ) : ℚ) / 1000 ≤ ((u - s.lastRefillMs : ℕ) : ℚ) / 1000 := by
    have : t - s.lastRefillMs ≤ u - s.lastRefillMs := by omega
    gcongr
  have hsub' : ((u - s.lastRefillMs : ℕ) : ℚ) ≤ (t - s.lastRefillMs : ℕ) + (u - t : ℕ) := by
    exact_mod_cast hsub
  rw [balance_eq hs, balance_eq hs]
  refine (accrue_le_add hr.le hmono).trans (add_le_add_right ?_ _)
  rw [div_sub_div_same, div_mul_eq_mul_div, div_mul_eq_mul_div, mul_comm]
  gcongr
  linarith

theorem balance_new (hr : 0 < c.refillRate) (t : ℕ) :
    (BucketState.new c).balance c t = c.capacity := by
  rw [balance_eq ⟨Nat.cast_nonneg _, le_rfl⟩]
  exact accrue_full hr.le (by positivity) le_rfl

theorem valid_invariant (hr : 0 < c.refillRate) :
    KeyInvariant (policy c) (fun _ s => s.Valid c) (fun _ _ => True) where
  fresh _ := ⟨Nat.cast_nonneg _, le_rfl⟩
  later _ h := h
  touch _ h := ⟨(refill_valid hr h).nonneg, (refill_valid hr h).capped⟩
  hold := by
    intro t s id estimate hs hx
    have hfits : (estimate : ℚ) ≤ s.tokens := by
      simp only [policy, BucketState.judge] at hx
      by_contra hlt
      simp [not_le.mp hlt] at hx
    have hest : (0 : ℚ) ≤ estimate := Nat.cast_nonneg _
    have hcap := hs.capped
    constructor
    · simpa [policy, BucketState.hold] using hfits
    · simp only [policy, BucketState.hold]
      linarith
  settle := by
    intro t s o id r actual hs _ _
    have hv : (BucketState.refill c t (s.release id)).Valid c :=
      refill_valid hr ⟨hs.nonneg, hs.capped⟩
    have hcap : (0 : ℚ) ≤ c.capacity := Nat.cast_nonneg _
    have hn := hv.nonneg
    have hc := hv.capped
    simp only [policy, BucketState.settle, BucketState.credit]
    split
    · exact ⟨le_min (by positivity) hcap, min_le_right _ _⟩
    · split
      · have hover : (0 : ℚ) ≤ (actual - r.estimate : ℕ) := Nat.cast_nonneg _
        exact ⟨le_max_right _ _, max_le (by linarith) hcap⟩
      · exact hv

theorem refill_of_le (h : t ≤ s.lastRefillMs) : s.refill c t = s := by
  have hzero : ¬ 0 < t - s.lastRefillMs := by omega
  simp only [BucketState.refill, hzero, if_false]

theorem le_lastRefillMs_refill (c : TokenBucketConfig) (t : ℕ) (s : BucketState) :
    t ≤ (s.refill c t).lastRefillMs := by
  simp only [BucketState.refill]
  split
  · exact le_rfl
  · omega

theorem balance_of_le (h : t ≤ s.lastRefillMs) : s.balance c t = s.tokens := by
  rw [BucketState.balance, refill_of_le h]

theorem balance_touch (c : TokenBucketConfig) (o : IterOrder) (t : ℕ) (s : BucketState) :
    ((policy c).touch o t s).1.balance c t = s.balance c t :=
  balance_of_le (le_lastRefillMs_refill c t s)

theorem balance_hold (c : TokenBucketConfig) (o : IterOrder) (t id : ℕ) (r : ActiveReservation)
    (s : BucketState) :
    ((policy c).hold id r ((policy c).touch o t s).1).balance c t =
      s.balance c t - r.estimate :=
  balance_of_le (le_lastRefillMs_refill c t s)

theorem credit_tokens_le (hs : s.Valid c) (refund overage : ℕ) :
    (s.credit c refund overage).tokens ≤ s.tokens + min (refund : ℚ) (c.capacity - s.tokens) := by
  have hn := hs.nonneg
  have hc := hs.capped
  rw [← min_add_add_left, add_sub_cancel]
  simp only [BucketState.credit]
  split
  · exact le_rfl
  · have hrefund : (0 : ℚ) ≤ refund := Nat.cast_nonneg _
    refine le_min (le_trans ?_ (le_add_of_nonneg_right hrefund)) (le_trans ?_ hc) <;>
    · split
      · have hover : (0 : ℚ) ≤ overage := Nat.cast_nonneg _
        exact max_le (by linarith) hn
      · exact le_rfl

theorem credit_lastRefillMs (c : TokenBucketConfig) (refund overage : ℕ) (s : BucketState) :
    (s.credit c refund overage).lastRefillMs = s.lastRefillMs := by
  simp only [BucketState.credit]
  split
  · rfl
  · split <;> rfl

theorem release_refill_tokens (c : TokenBucketConfig) (t id : ℕ) (s : BucketState) :
    ((s.release id).refill c t).tokens = s.balance c t := by
  by_cases helapsed : 0 < t - s.lastRefillMs <;>
    simp [BucketState.balance, BucketState.refill, BucketState.release, helapsed]

theorem balance_settle (c : TokenBucketConfig) (o : IterOrder) (t id : ℕ) (r : ActiveReservation)
    (actual : ℕ) (s : BucketState) :
    ((policy c).settle o t r actual ((policy c).release id s)).1.balance c t =
      (((s.release id).refill c t).credit c (r.estimate - actual)
        (actual - r.estimate)).tokens := by
  refine balance_of_le ?_
  simpa only [policy, BucketState.settle, credit_lastRefillMs] using
    le_lastRefillMs_refill c t (s.release id)

theorem balance_settle_le (hr : 0 < c.refillRate) (hs : s.Valid c) (o : IterOrder) (id : ℕ)
    (r : ActiveReservation) (actual : ℕ) :
    ((policy c).settle o t r actual ((policy c).release id s)).1.balance c t ≤
      s.balance c t + min ((r.estimate - actual : ℕ) : ℚ) (c.capacity - s.balance c t) := by
  have hreleased : (s.release id).Valid c := ⟨hs.nonneg, hs.capped⟩
  rw [balance_settle, ← release_refill_tokens c t id s]
  exact credit_tokens_le (refill_valid (t := t) hr hreleased) _ _

theorem balance_swept (hr : 0 < c.refillRate) (hs : s.Valid c) {o : IterOrder}
    {s' : BucketState} (h : Swept (policy c) o t s s') : s'.balance c t = s.balance c t := by
  rcases h with rfl | ⟨rfl, hempty | rfl⟩
  · exact balance_touch c o t s
  · have hfull : (c.capacity : ℚ) ≤ (s.refill c t).tokens := by
      simp only [policy, BucketState.isEmpty, BucketState.reap, Bool.and_eq_true,
        decide_eq_true_eq] at hempty
      exact hempty.2
    rw [policy, balance_new hr]
    exact le_antisymm hfull (refill_valid hr hs).capped
  · rfl

end Balance

def admittedTo (c : TokenBucketConfig) (key : String) (L : Ledger) : Call → ℚ
  | .reserve o k estimate t =>
    if k = key then
      match (reserve c o L k estimate t).2 with
      | .admitted r => r.estimate
      | .denied _ _ _ => 0
    else 0
  | _ => 0

def refundedTo (c : TokenBucketConfig) (key : String) (L : Ledger) : Call → ℚ
  | .reconcile o id actual t =>
    if L.reservations.lookup id = some key then
      match (reconcile c o L id actual t).2 with
      | .applied _ refund _ => refund
      | .noop => 0
    else 0
  | _ => 0

/-- The part of that refund that still fits under the capacity. -/
def creditedTo (c : TokenBucketConfig) (key : String) (L : Ledger) (call : Call) : ℚ :=
  min (refundedTo c key L call)
    (c.capacity - (view (policy c) L key).balance c call.nowMs)

section RateBound

variable {c : TokenBucketConfig} {L : Ledger} {t : ℕ} (key : String)

theorem balance_put {L L' : Ledger} {k : String} {s : BucketState} {paid : ℚ}
    (hview : ∀ k, view (policy c) L' k = view (policy c) L k) {M : Ledger}
    (hM : M.keys = L'.keys.insert k s)
    (hs : s.balance c t + paid = (view (policy c) L k).balance c t) :
    (view (policy c) M key).balance c t + (if k = key then paid else 0) =
      (view (policy c) L key).balance c t := by
  rw [view_insert (policy c) hM]
  by_cases hk : k = key
  · subst hk
    simpa using hs
  · simp [hk, Ne.symm hk, hview]

theorem reserve_pays (o : IterOrder) (k : String) (estimate t : ℕ) :
    (view (policy c) (reserve c o L k estimate t).1 key).balance c t +
        admittedTo c key L (.reserve o k estimate t) =
      (view (policy c) L key).balance c t := by
  simp only [admittedTo, reserve]
  rcases reserve_cases (policy c) c.bounds o L k estimate t with
    ⟨-, h⟩ | ⟨-, -, h⟩ | ⟨-, L', he, h⟩
  · simp [h]
  · simp [h]
  · obtain ⟨-, hview, -⟩ := entry_spec he
    have htouch := balance_touch c o t (view (policy c) L k)
    rw [h]
    rcases reserveLocked_cases (policy c) c.bounds o L' k (view (policy c) L k) estimate t with
      ⟨retry, -, h⟩ | ⟨-, -, h⟩ | ⟨-, -, h⟩
    · rw [h]
      exact balance_put key hview rfl (by rw [htouch, add_zero])
    · rw [h]
      exact balance_put key hview rfl (by rw [htouch, add_zero])
    · rw [h]
      exact balance_put key hview rfl (by rw [balance_hold, sub_add_cancel])

theorem reconcile_pays (hr : 0 < c.refillRate) (hvalid : ∀ k, (view (policy c) L k).Valid c)
    (o : IterOrder) (id : ℕ) (actual : Option ℕ) (t : ℕ) :
    (view (policy c) (reconcile c o L id actual t).1 key).balance c t ≤
      (view (policy c) L key).balance c t + creditedTo c key L (.reconcile o id actual t) := by
  have hcap := (refill_valid (t := t) hr (hvalid key)).capped
  have hnonneg : 0 ≤ (c.capacity : ℚ) - (view (policy c) L key).balance c t := sub_nonneg.mpr hcap
  simp only [creditedTo, refundedTo, reconcile, Call.nowMs]
  rcases reconcile_cases (policy c) o L id actual t with ⟨h, -⟩ | ⟨k, r, hk, hactive, h⟩
  · simp only [h, ite_self, min_eq_left hnonneg, add_zero]
    exact le_rfl
  · simp only [h, hk, Option.some.injEq]
    rw [view_insert (policy c) rfl]
    by_cases hkey : k = key
    · subst hkey
      simp only [if_true]
      exact balance_settle_le hr (hvalid k) o id r _
    · simp only [hkey, Ne.symm hkey, if_false, min_eq_left hnonneg, add_zero]
      exact le_rfl

theorem cleanupKey_balance (hr : 0 < c.refillRate) (hvalid : (view (policy c) L key).Valid c)
    (o : IterOrder) (k : String) (t : ℕ) :
    (view (policy c) (cleanupKey (policy c) o L t k).1 key).balance c t =
      (view (policy c) L key).balance c t := by
  obtain ⟨⟨s', hswept, hview⟩, -⟩ := cleanupKey_spec (policy c) o L t k
  rw [hview]
  by_cases hk : key = k
  · subst hk
    rw [if_pos rfl]
    exact balance_swept hr hvalid hswept
  · rw [if_neg hk]

/-- Bringing balances up to date and forgetting full buckets changes no balance. -/
theorem cleanup_balance (hr : 0 < c.refillRate) (scan : List (IterOrder × String)) {t : ℕ}
    (h : AllKeys (fun _ s => s.Valid c) t L) :
    (view (policy c) (cleanup c L t scan).1 key).balance c t =
      (view (policy c) L key).balance c t := by
  induction scan generalizing L with
  | nil => rfl
  | cons e scan ih =>
    have hvalid := view_of_allKeys (valid_invariant hr) h key
    have hrest := ih ((valid_invariant hr).cleanupKey e.1 e.2 h)
    exact hrest.trans (cleanupKey_balance key hr hvalid e.1 e.2 t)

theorem balance_potential (hr : 0 < c.refillRate) :
    Potential (step c) Call.nowMs (AllKeys fun _ s => s.Valid c)
      (fun t L => (view (policy c) L key).balance c t) (c.refillRate / 1000)
      (admittedTo c key) (creditedTo c key) where
  rate_nonneg := by positivity
  later h _ := h
  keeps h := (valid_invariant hr).step h le_rfl (settlesWith_true _ _)
  nonneg h := (refill_valid hr (view_of_allKeys (valid_invariant hr) h key)).nonneg
  grows h htu := balance_grows hr (view_of_allKeys (valid_invariant hr) h key) htu
  pays := by
    intro L call h
    have hvalid := fun k => view_of_allKeys (valid_invariant hr) h k
    have hcap := (refill_valid (t := call.nowMs) hr (hvalid key)).capped
    have hnonneg : 0 ≤ (c.capacity : ℚ) - (view (policy c) L key).balance c call.nowMs :=
      sub_nonneg.mpr hcap
    cases call with
    | reserve o k estimate t =>
      have hpay := reserve_pays (c := c) (L := L) key o k estimate t
      simp only [creditedTo, refundedTo, min_eq_left hnonneg, add_zero]
      exact hpay.le
    | reconcile o id actual t =>
      have hpay := reconcile_pays key hr hvalid o id actual t
      simp only [admittedTo, add_zero]
      exact hpay
    | cleanup t scan =>
      have hsame := cleanup_balance key hr scan h
      simp only [creditedTo, refundedTo, admittedTo, min_eq_left hnonneg, add_zero]
      exact hsame.le

end RateBound

/-- In every run every balance stays between zero and the capacity, and what a key is admitted
in a window of time is at most the capacity, what refills over the window and the refunds
credited to the key in it, which are at most the refunds reported. -/
theorem run_rate_bound (c : TokenBucketConfig) (valid : c.validate = .ok ())
    (calls : List Call) (ordered : TimedRuns.Ordered Call.nowMs 0 calls) (key : String)
    (t₁ t₂ : ℕ) (window : t₁ ≤ t₂) :
    (∀ k s, (TimedRuns.final (step c) Ledger.new calls).keys.lookup k = some s →
        0 ≤ s.tokens ∧ s.tokens ≤ c.capacity) ∧
      windowSum (step c) Call.nowMs t₁ t₂ (admittedTo c key) Ledger.new calls ≤
        c.capacity + c.refillRate * ((t₂ : ℚ) - t₁) / 1000 +
          windowSum (step c) Call.nowMs t₁ t₂ (creditedTo c key) Ledger.new calls ∧
      windowSum (step c) Call.nowMs t₁ t₂ (creditedTo c key) Ledger.new calls ≤
        windowSum (step c) Call.nowMs t₁ t₂ (refundedTo c key) Ledger.new calls := by
  have hr := refillRate_pos valid
  have hall := (valid_invariant hr).run (B := c.bounds) ordered
    (TimedRuns.along_of_forall fun L call => settlesWith_true L call)
  refine ⟨fun k s hs => ⟨(hall k s hs).nonneg, (hall k s hs).capped⟩, ?_, ?_⟩
  · have hbound := (balance_potential key hr).window t₂
      (fun h => (refill_valid hr (view_of_allKeys (valid_invariant hr) h key)).capped)
      (AllKeys.new 0) ordered (Nat.zero_le t₁)
    rw [Nat.cast_sub window, div_mul_eq_mul_div] at hbound
    exact hbound
  · exact windowSum_mono (fun L call => min_le_left _ _) _ _

/-- Two admissions in one second: the second fits only thanks to the refund of the first. -/
theorem run_rate_bound_refund :
    let c : TokenBucketConfig := ⟨100, 10, 5000, 4, 8, 4⟩
    let calls : List Call := [.reserve .asStored "k" 90 1000, .reconcile .asStored 1 (some 20) 1500,
      .reserve .asStored "k" 80 2000]
    windowSum (step c) Call.nowMs 1000 2000 (admittedTo c "k") Ledger.new calls ≤
      100 + 10 * ((2000 : ℚ) - 1000) / 1000 +
        windowSum (step c) Call.nowMs 1000 2000 (creditedTo c "k") Ledger.new calls ∧
    windowSum (step c) Call.nowMs 1000 2000 (admittedTo c "k") Ledger.new calls = 170 := by
  intro c calls
  have h := run_rate_bound c (by decide +kernel) calls (by decide) "k" 1000 2000 (by decide)
  exact ⟨by simpa [c] using h.2.1, by decide +kernel⟩

end TokenBucketLedger
