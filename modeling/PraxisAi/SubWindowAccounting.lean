import PraxisAi.UsageCharges
import PraxisAi.TimedRuns

/-! # Sub-window counting is late, never early

Calls on the shared sliding window, one after another on one clock. No counter is lost while a
window still covers its admissions, so a budget's counters hold at least what was charged inside
the window, and at most what was charged inside the window and one sub-window before it. -/
namespace SubWindowAccounting

open List
open ExpiringKeys SaturatingArithmetic StateBackend ValkeyCommands SubWindows IndexedSums
open KeyedMaps ReservationLedger ValkeySlidingWindow UsageCharges TimedRuns
open SlidingWindowLedger (Budget KeyState LedgerConfig Usage judge_fits usageInWindow_eq)

structure Account where
  store : Store
  charges : List Charge

def Account.new : Account := ⟨Store.new, []⟩

inductive Call where
  | reserve (request : ReserveRequest)
  /-- An admission decided on an earlier read. -/
  | admission (request : ReserveRequest)
  | reconcile (request : ReconcileRequest)

def Call.nowMs : Call → ℕ
  | .reserve request => request.nowMs
  | .admission request => request.nowMs
  | .reconcile request => request.nowMs

variable (c : ValkeySlidingWindowConfig)

def Account.admission (a : Account) (request : ReserveRequest) : Account :=
  ⟨(admitRequest c request.nowMs a.store request).1,
    a.charges ++ [newCharge request (a.store.seq + 1)]⟩

def Account.reserve (a : Account) (request : ReserveRequest) : Account :=
  let (store, reads) := readWindow c a.store request.nowMs request.key request.nowMs
  match decideReserve c reads request.estimate request.nowMs with
  | .denied _ _ _ => { a with store := store }
  | .admission _ _ => { a with store := store }.admission c request

def Account.reconcile (a : Account) (request : ReconcileRequest) : Account :=
  { store := (ValkeySlidingWindow.reconcile c request.nowMs a.store request).1
    charges :=
      match planReconcile (readReservation a.store request.nowMs request) request.actual with
      | .commit _ _ actual => a.charges.map (settleCharge request.reservationId actual)
      | _ => a.charges }

def step (a : Account) : Call → Account × Unit
  | .reserve request => (a.reserve c request, ())
  | .admission request => (a.admission c request, ())
  | .reconcile request => (a.reconcile c request, ())

/-- Amounts and times are 64-bit integers. -/
def Call.Typed : Call → Prop
  | .reserve request => request.estimate ≤ u64Max ∧ request.nowMs ≤ u64Max
  | .admission request => request.estimate ≤ u64Max ∧ request.nowMs ≤ u64Max
  | .reconcile request => request.nowMs ≤ u64Max

def InRange (a : Account) (call : Call) : Prop := call.Typed ∧ Fits c (step c a call).1.charges

/-- Charges of the admissions in `(now - window, now]`. -/
def chargedWithin (key : String) (nowMs windowMs : ℕ) (charges : List Charge) : ℕ :=
  total Charge.amount (fun e => e.key = key ∧ e.admittedAtMs ≤ nowMs ∧
    nowMs < e.admittedAtMs + windowMs) charges

def live (nowMs : ℕ) (e : Charge) : Bool :=
  e.settled = none ∧ nowMs - e.admittedAtMs < c.reservationTimeoutMs

/-- The in-process ledger of the same admissions: what has been settled or has timed out is
usage, the rest is active. -/
def exactState (key : String) (nowMs : ℕ) (charges : List Charge) : KeyState where
  settled := (charges.filter fun e => e.key = key ∧ ¬ live c nowMs e).map fun e =>
    ⟨e.admittedAtMs, e.amount⟩
  active := ((charges.filter fun e => e.key = key ∧ live c nowMs e).map fun e =>
    (⟨e.id, e.estimate, e.admittedAtMs⟩ : (_ : ℕ) × ActiveReservation)).toAList

def exactConfig : LedgerConfig :=
  ⟨c.budgets, c.reservationTimeoutMs, c.maxKeys, 0, c.maxActiveReservations⟩

/-- A counter is there as long as some admission of its sub-window needs it. -/
def Lasts (ttlMs : ℕ) (inside : Charge → Bool) (charges : List Charge) :
    Option (Slot ℤ) → Prop
  | none => ∀ e ∈ charges, inside e = false
  | some slot => (∃ e ∈ charges, inside e = true) ∧ ∃ expiry, slot.expiresAt = some expiry ∧
      ∀ e ∈ charges, inside e = true → e.admittedAtMs + ttlMs ≤ expiry

structure Accounts (t : ℕ) (a : Account) : Prop where
  books : Books c a.store a.charges
  fits : Fits c a.charges
  past : ∀ e ∈ a.charges, e.admittedAtMs ≤ t
  timed : ∀ key id slot, (a.store.reservation key id).slot = some slot →
    ∀ e ∈ a.charges, e.id = id → slot.expiresAt = some (e.admittedAtMs + c.reservationTimeoutMs)
  lasting : ∀ key, ∀ width ∈ c.widths, ∀ i, Lasts width.ttlMs (Charge.inside key width.bucketMs i)
    a.charges (a.store.usage key width.bucketMs i)

/-- What the configuration's checks and types give: windows are 64-bit, and no reservation
outlives the shortest of them. -/
structure Windows : Prop where
  bounded : ∀ b ∈ c.budgets, b.windowMs ≤ u64Max
  timeout : ∀ b ∈ c.budgets, c.reservationTimeoutMs ≤ b.windowMs

variable {c} {a : Account} {t : ℕ}

section Lifetimes

/-- A counter outlives its sub-window and the reservations admitted in it. -/
theorem ttl_spec (hw : Windows c) {width : CounterWidth} (hwidth : width ∈ c.widths) :
    0 < width.bucketMs ∧ width.bucketMs ≤ width.ttlMs ∧
      c.reservationTimeoutMs ≤ width.ttlMs := by
  obtain ⟨b, hb, hsame, httl⟩ := (counterWidths_spec _ _).lasting width hwidth
  have hbound := hw.bounded b hb
  have htimeout := hw.timeout b hb
  have hpos := bucketMs_pos b.windowMs
  have hle := bucketMs_le hbound
  rw [hsame]
  simp only [counterTtlMs, satAdd] at httl
  omega

theorem budget_width (hw : Windows c) {b : Budget} (hb : b ∈ c.budgets) :
    ∃ width ∈ c.widths, width.bucketMs = bucketMs b.windowMs ∧
      (b.windowMs ≤ width.ttlMs) := by
  obtain ⟨width, hwidth, hsame, httl⟩ := (counterWidths_spec _ _).found b hb
  refine ⟨width, hwidth, hsame, ?_⟩
  have hbound := hw.bounded b hb
  simp only [counterTtlMs, satAdd] at httl
  omega

variable {ttl : ℕ} {inside : Charge → Bool} {charges : List Charge} {slot : Option (Slot ℤ)}

theorem Lasts.alive {e : Charge} (h : Lasts ttl inside charges slot) (he : e ∈ charges)
    (hin : inside e = true) (hlt : t < e.admittedAtMs + ttl) :
    slot.isSome ∧ visible t slot = slot := by
  cases slot with
  | none => exact absurd hin (by simp [h e he])
  | some s =>
    obtain ⟨-, expiry, hexpiry, hlater⟩ := h
    refine ⟨rfl, visible_of_alive (alive_iff.mpr fun x hx => ?_)⟩
    rw [hexpiry, Option.mem_some_iff] at hx
    have := hlater e he hin
    omega

theorem addUsage_expires (ttl : ℕ) {delta : ℤ} (h : visible t slot = slot)
    (hdelta : -2 ^ 63 ≤ delta ∧ delta ≤ i64Max) :
    ∃ value, addUsage t ttl delta slot =
      some ⟨value, some (max ((slot.bind Slot.expiresAt).getD 0) (t + ttl))⟩ := by
  have hextended : ∀ s : Slot ℤ, s.expiresAt = slot.bind Slot.expiresAt →
      ∃ value, some (extendSharedTtl t ttl s) =
        some ⟨value, some (max ((slot.bind Slot.expiresAt).getD 0) (t + ttl))⟩ := by
    intro s hs
    refine ⟨s.value, ?_⟩
    rw [extendSharedTtl, extend_eq, hs]
  simp only [addUsage, incrBy, h]
  split
  · rw [Option.some_or, Option.map_some]
    exact hextended _ (by rw [rewrite, h])
  · next hrefused =>
    cases slot with
    | none => exact absurd (by simpa using hdelta) hrefused
    | some s => exact hextended s rfl

/-- A change to the counters of one admission time keeps every counter as long as needed. -/
theorem lasting_delta {s : Store} {charges' : List Charge} {key : String} {admittedAtMs : ℕ}
    {delta : ℤ} (hvisible : CountersVisible c t s key admittedAtMs)
    (hlasting : ∀ key, ∀ width ∈ c.widths, ∀ i, Lasts width.ttlMs
      (Charge.inside key width.bucketMs i) charges (s.usage key width.bucketMs i))
    (hdelta : -2 ^ 63 ≤ delta ∧ delta ≤ i64Max)
    (hthere : ∃ e ∈ charges', e.key = key ∧ e.admittedAtMs = admittedAtMs)
    (hsame : ∀ k w i, (∃ e ∈ charges, e.inside k w i = true) →
      ∃ e ∈ charges', e.inside k w i = true)
    (hbound : ∀ k w i, ∀ e' ∈ charges', e'.inside k w i = true →
      (∃ e ∈ charges, e.inside k w i = true ∧ e.admittedAtMs = e'.admittedAtMs) ∨
        (k = key ∧ i = bucketIndex admittedAtMs w ∧ e'.admittedAtMs ≤ t)) :
    ∀ k, ∀ width ∈ c.widths, ∀ i, Lasts width.ttlMs (Charge.inside k width.bucketMs i) charges'
      ((addUsageDelta t key admittedAtMs delta c.widths s).1.usage k width.bucketMs i) := by
  intro k width hwidth i
  have hold := hlasting k width hwidth i
  by_cases hk : k = key ∧ i = bucketIndex admittedAtMs width.bucketMs
  · obtain ⟨rfl, rfl⟩ := hk
    obtain ⟨value, hvalue⟩ := addUsage_expires width.ttlMs (hvisible width hwidth) hdelta
    rw [addUsageDelta_mem (widths_nodup c) hwidth, hvalue]
    refine ⟨?_, _, rfl, ?_⟩
    · obtain ⟨e, he, hkey, hadmitted⟩ := hthere
      exact ⟨e, he, by simp [Charge.inside, hkey, hadmitted]⟩
    · intro e' he' hin'
      rcases hbound _ _ _ e' he' hin' with ⟨e, he, hin, hadmitted⟩ | ⟨-, -, hle⟩
      · cases hslot : s.usage k width.bucketMs (bucketIndex admittedAtMs width.bucketMs) with
        | none =>
          rw [hslot] at hold
          exact absurd hin (by simp [hold e he])
        | some slot =>
          rw [hslot] at hold
          obtain ⟨-, expiry, hexpiry, hlater⟩ := hold
          have := hlater e he hin
          simp only [Option.bind_some, hexpiry, Option.getD_some]
          omega
      · omega
  · rw [addUsageDelta_other fun h => hk ⟨h.1, h.2.2⟩]
    have hback : ∀ e' ∈ charges', e'.inside k width.bucketMs i = true →
        ∃ e ∈ charges, e.inside k width.bucketMs i = true ∧ e.admittedAtMs = e'.admittedAtMs := by
      intro e' he' hin'
      rcases hbound _ _ _ e' he' hin' with hthis | ⟨hkey, hi, -⟩
      · exact hthis
      · exact absurd ⟨hkey, hi⟩ hk
    cases hslot : s.usage k width.bucketMs i with
    | none =>
      rw [hslot] at hold
      intro e' he'
      by_contra hin
      obtain ⟨e, he, hin, -⟩ := hback e' he' (by simpa using hin)
      exact absurd hin (by simp [hold e he])
    | some slot =>
      rw [hslot] at hold
      obtain ⟨hsome, expiry, hexpiry, hlater⟩ := hold
      refine ⟨hsame _ _ _ hsome, expiry, hexpiry, ?_⟩
      intro e' he' hin'
      obtain ⟨e, he, hin, hadmitted⟩ := hback e' he' hin'
      rw [← hadmitted]
      exact hlater e he hin

end Lifetimes

section Steps

theorem accounts_new : Accounts c 0 Account.new := by
  constructor
  · exact books_new c
  · intro key width _ i
    simp [Account.new, charged]
  · intro e he
    cases he
  · intro key id slot hslot
    cases hslot
  · intro key width _ i e he
    cases he

theorem Accounts.later {u : ℕ} (h : Accounts c t a) (hle : t ≤ u) : Accounts c u a :=
  ⟨h.books, h.fits, fun e he => (h.past e he).trans hle, h.timed, h.lasting⟩

/-- At the time of an admission the counters of its sub-windows are there or still absent. -/
theorem Accounts.visible_now (hw : Windows c) (h : Accounts c t a) (key : String) :
    CountersVisible c t a.store key t := by
  intro width hwidth
  obtain ⟨hpos, hwide, -⟩ := ttl_spec hw hwidth
  have hlast := h.lasting key width hwidth (bucketIndex t width.bucketMs)
  cases hslot : a.store.usage key width.bucketMs (bucketIndex t width.bucketMs) with
  | none => rfl
  | some s =>
    rw [hslot] at hlast
    obtain ⟨e, he, hin⟩ := hlast.1
    have hindex : bucketIndex e.admittedAtMs width.bucketMs = bucketIndex t width.bucketMs := by
      simp only [Charge.inside, decide_eq_true_eq] at hin
      exact hin.2
    exact (hlast.alive he hin ((lt_of_bucketIndex_eq hpos hindex).trans_le (by omega))).2

theorem Accounts.read (h : Accounts c t a) (key : String) (nowMs : ℕ) :
    Accounts c t { a with store := (readWindow c a.store t key nowMs).1 } :=
  ⟨h.books.congr rfl rfl le_rfl, h.fits, h.past, h.timed, h.lasting⟩

theorem toI64_bounds (n : ℕ) : -2 ^ 63 ≤ toI64 n ∧ toI64 n ≤ i64Max := by
  simp only [toI64]
  omega

theorem Accounts.admission (hw : Windows c) {request : ReserveRequest}
    (h : Accounts c request.nowMs a) (hestimate : request.estimate ≤ u64Max)
    (hnow : request.nowMs ≤ u64Max) (hfits : Fits c (a.admission c request).charges) :
    Accounts c request.nowMs (a.admission c request) := by
  have hvisible := h.visible_now hw request.key
  refine ⟨(h.books.admitRequest request hestimate hnow hvisible hfits).1, hfits, ?_, ?_, ?_⟩
  · intro e he
    rcases mem_append.mp he with he | he
    · exact h.past e he
    · obtain rfl := mem_singleton.mp he
      exact le_rfl
  · intro key id slot hslot e he hid
    simp only [Account.admission, admitRequest_slot] at hslot
    rcases mem_append.mp he with he | he
    · rw [if_neg] at hslot
      · exact h.timed key id slot hslot e he hid
      · rintro ⟨-, rfl⟩
        have := h.books.below e he
        omega
    · obtain rfl := mem_singleton.mp he
      by_cases hkey : key = request.key
      · rw [if_pos ⟨hkey, hid.symm⟩] at hslot
        obtain rfl := Option.some.inj hslot
        rfl
      · rw [if_neg fun h => hkey h.1] at hslot
        obtain ⟨e, he, -, hother, -⟩ := h.books.held key id slot hslot
        have := h.books.below e he
        have hid' : a.store.seq + 1 = id := hid
        omega
  · refine lasting_delta hvisible h.lasting (toI64_bounds _) ?_ ?_ ?_
    · exact ⟨_, mem_append_right _ (mem_singleton_self _), rfl, rfl⟩
    · rintro k w i ⟨e, he, hin⟩
      exact ⟨e, mem_append_left _ he, hin⟩
    · intro k w i e' he' hin'
      rcases mem_append.mp he' with he' | he'
      · exact .inl ⟨e', he', hin', rfl⟩
      · obtain rfl := mem_singleton.mp he'
        simp only [Charge.inside, decide_eq_true_eq] at hin'
        exact .inr ⟨hin'.1.symm, hin'.2.symm, le_rfl⟩

theorem Accounts.reserve (hw : Windows c) {request : ReserveRequest}
    (h : Accounts c request.nowMs a) (hestimate : request.estimate ≤ u64Max)
    (hnow : request.nowMs ≤ u64Max) (hfits : Fits c (a.reserve c request).charges) :
    Accounts c request.nowMs (a.reserve c request) := by
  have hread := h.read request.key request.nowMs
  simp only [Account.reserve] at *
  split
  · exact hread
  · next heq =>
    rw [heq] at hfits
    exact hread.admission hw hestimate hnow hfits

theorem clampI64_bounds (n : ℤ) : -2 ^ 63 ≤ clampI64 n ∧ clampI64 n ≤ i64Max := by
  simp only [clampI64, i64Max]
  omega

theorem Accounts.reconcile (hw : Windows c) {request : ReconcileRequest}
    (h : Accounts c request.nowMs a) (hfits : Fits c (a.reconcile c request).charges) :
    Accounts c request.nowMs (a.reconcile c request) := by
  simp only [Account.reconcile, ValkeySlidingWindow.reconcile] at *
  rcases hread : visible request.nowMs
      (a.store.reservation request.key request.reservationId).slot with _ | slot
  · simp only [readReservation, hread, Option.map_none, planReconcile]
    exact h
  · obtain ⟨hslot, halive⟩ := visible_eq_some.mp hread
    simp only [readReservation, hread, Option.map_some] at hfits ⊢
    rcases hplan : planReconcile (some slot.value) request.actual with
      error | - | ⟨estimate, admittedAtMs, actual⟩
    · exact h
    · exact h
    · rw [hplan] at hfits
      obtain ⟨e₀, he₀, hkey, hid, hsettled, rfl, rfl⟩ := h.books.planned hslot hplan
      have hlive : request.nowMs < e₀.admittedAtMs + c.reservationTimeoutMs :=
        alive_iff.mp halive _ (h.timed _ _ _ hslot e₀ he₀ hid)
      have hvisible : CountersVisible c request.nowMs a.store request.key e₀.admittedAtMs := by
        intro width hwidth
        obtain ⟨-, -, htimeout⟩ := ttl_spec hw hwidth
        refine ((h.lasting _ width hwidth _).alive he₀ ?_ (by omega)).2
        simp [Charge.inside, hkey]
      obtain ⟨hbooks, -⟩ := h.books.settlementPipeline he₀ hkey hid hsettled hvisible h.fits hfits
      refine ⟨hbooks, hfits, ?_, ?_, ?_⟩
      · intro e he
        obtain ⟨e', he', rfl⟩ := mem_map.mp he
        rw [settleCharge_admittedAtMs]
        exact h.past e' he'
      · intro key id s hs e he hi
        obtain ⟨e', he', rfl⟩ := mem_map.mp he
        rw [settleCharge_id] at hi
        rw [settleCharge_admittedAtMs]
        rw [settlementPipeline_slot] at hs
        split at hs
        · cases hs
        · exact h.timed key id s hs e' he' hi
      · refine lasting_delta hvisible h.lasting (clampI64_bounds _) ?_ ?_ ?_
        · exact ⟨_, mem_map_of_mem he₀, by simp [hkey], by simp⟩
        · rintro k w i ⟨e, he, hin⟩
          exact ⟨_, mem_map_of_mem he, inside_settleCharge.trans hin⟩
        · intro k w i e' he' hin'
          obtain ⟨e, he, rfl⟩ := mem_map.mp he'
          exact .inl ⟨e, he, inside_settleCharge.symm.trans hin', by simp⟩

theorem Accounts.step (hw : Windows c) (h : Accounts c t a) (call : Call) (hle : t ≤ call.nowMs)
    (hrange : InRange c a call) : Accounts c call.nowMs (step c a call).1 := by
  have hnow := h.later hle
  cases call with
  | reserve request => exact hnow.reserve hw hrange.1.1 hrange.1.2 hrange.2
  | admission request => exact hnow.admission hw hrange.1.1 hrange.1.2 hrange.2
  | reconcile request => exact hnow.reconcile hw hrange.2

theorem accounts_run (hw : Windows c) {calls : List Call} (ordered : Ordered Call.nowMs 0 calls)
    (inRange : Along (SubWindowAccounting.step c) (InRange c) Account.new calls) :
    Accounts c (lastTime Call.nowMs 0 calls)
      (final (SubWindowAccounting.step c) Account.new calls) :=
  invariant_final (fun _ _ call h hle hok => h.step hw call hle hok) accounts_new ordered inRange

end Steps

section Counting

theorem countedUsage_eq (counters : List (Option ℤ)) :
    countedUsage counters = min (counters.map fun value => (value.getD 0).toNat).sum i64Max := by
  have general : ∀ sum : ℕ, sum ≤ i64Max →
      (counters.filterMap fun value => value.map (max · 0)).foldl
        (fun a b => clampI64 (a + b)) (sum : ℤ) =
          (min (sum + (counters.map fun value => (value.getD 0).toNat).sum) i64Max : ℕ) := by
    induction counters with
    | nil =>
      intro sum hsum
      simpa using hsum
    | cons value counters ih =>
      intro sum hsum
      cases value with
      | none => simpa using ih sum hsum
      | some value =>
        have hclamp : clampI64 (sum + max value 0) = (min (sum + value.toNat) i64Max : ℕ) := by
          simp only [clampI64, i64Max]
          omega
        simp only [filterMap_cons, Option.map_some, foldl_cons, hclamp, map_cons,
          Option.getD_some, sum_cons]
        rw [ih _ (min_le_right _ _)]
        omega
  have h := general 0 (Nat.zero_le _)
  rw [Nat.cast_zero, zero_add] at h
  rw [countedUsage, h, Int.toNat_natCast]

theorem sum_map_filter {α : Type} (p : α → Bool) (f : α → ℕ) (l : List α) :
    (l.map fun x => if p x then f x else 0).sum = ((l.filter p).map f).sum := by
  induction l with
  | nil => rfl
  | cons x l ih => by_cases hx : p x = true <;> simp [hx, ih]

theorem sum_counters (h : Accounts c t a) {width : CounterWidth} (hwidth : width ∈ c.widths)
    (now : ℕ) (key : String) {indexes : List ℕ} (hnodup : indexes.Nodup) :
    (indexes.map fun i => (((visible now (a.store.usage key width.bucketMs i)).map
        Slot.value).getD 0).toNat).sum =
      total Charge.amount (fun e => e.key = key ∧ bucketIndex e.admittedAtMs width.bucketMs ∈
        indexes.filter fun i => (visible now (a.store.usage key width.bucketMs i)).isSome)
        a.charges := by
  have hvalue : ∀ i, (((visible now (a.store.usage key width.bucketMs i)).map
      Slot.value).getD 0).toNat = if (visible now (a.store.usage key width.bucketMs i)).isSome then
        charged key width.bucketMs i a.charges else 0 := by
    intro i
    rcases hslot : visible now (a.store.usage key width.bucketMs i) with _ | s
    · rfl
    · obtain ⟨hsome, -⟩ := visible_eq_some.mp hslot
      have hbalanced := h.books.balanced key width hwidth i
      rw [hsome] at hbalanced
      have hs : s.value = charged key width.bucketMs i a.charges := hbalanced
      simp [hs]
  have hmine : ∀ p : Charge → Bool, total Charge.amount (fun e => e.key = key ∧ p e) a.charges =
      total Charge.amount p (a.charges.filter fun e => e.key = key) := by
    intro p
    simp only [total, filter_filter]
    refine congrArg (fun l => (l.map Charge.amount).sum) (filter_congr fun e _ => ?_)
    by_cases hp : p e <;> simp [hp]
  have hcharged : ∀ i, charged key width.bucketMs i a.charges = total Charge.amount
      (fun e => bucketIndex e.admittedAtMs width.bucketMs = i)
        (a.charges.filter fun e => e.key = key) := by
    intro i
    rw [← hmine]
    exact total_congr fun e _ => by simp [Charge.inside]
  simp only [hvalue]
  rw [sum_map_filter]
  simp only [hcharged]
  rw [sum_total (fun e : Charge => bucketIndex e.admittedAtMs width.bucketMs) (hnodup.filter _),
    ← hmine]
  exact total_congr fun e _ => by simp

theorem counted_bounds (hw : Windows c) (h : Accounts c t a) {now : ℕ} (hle : t ≤ now)
    (hnow : now ≤ u64Max) (key : String) {b : Budget} (hb : b ∈ c.budgets) :
    min (chargedWithin key now b.windowMs a.charges) i64Max ≤
        countedUsage (countersAt a.store now key now b) ∧
      countedUsage (countersAt a.store now key now b) ≤
        chargedWithin key now (b.windowMs + bucketMs b.windowMs) a.charges := by
  obtain ⟨width, hwidth, hsame, httl⟩ := budget_width hw hb
  have hsum := sum_counters h hwidth now key
    (indexes_nodup (BucketRange.covering now b.windowMs))
  rw [hsame] at hsum
  rw [countedUsage_eq, countersAt, map_map]
  simp only [Function.comp_def, hsum]
  constructor
  · refine min_le_min_right _ (total_mono fun e he hin => ?_)
    simp only [decide_eq_true_eq] at hin ⊢
    obtain ⟨hkey, hadmitted, hinside⟩ := hin
    refine ⟨hkey, mem_filter.mpr ⟨(mem_indexes hnow).mpr ?_, ?_⟩⟩
    · exact covered_of_inside hadmitted hinside
    · have hlast := h.lasting key width hwidth (bucketIndex e.admittedAtMs width.bucketMs)
      obtain ⟨hsome, hvisible⟩ := hlast.alive (t := now) he (by simp [Charge.inside, hkey])
        (by omega)
      rw [← hsame, hvisible]
      exact hsome
  · refine (min_le_left _ _).trans (total_mono fun e he hin => ?_)
    simp only [decide_eq_true_eq] at hin ⊢
    obtain ⟨hkey, hcovered⟩ := hin
    have hmem := (mem_indexes hnow).mp (mem_of_mem_filter hcovered)
    refine ⟨hkey, (h.past e he).trans hle, ?_⟩
    have := inside_of_covered hmem.1
    omega

end Counting

section Exact

theorem sumBy_toAList_le (l : List ((_ : ℕ) × ActiveReservation)) :
    sumBy ActiveReservation.estimate l.toAList ≤ (l.map fun e => e.2.estimate).sum := by
  induction l with
  | nil => exact le_rfl
  | cons e l ih =>
    have herase := sumBy_erase_le ActiveReservation.estimate l.toAList e.1
    rw [AList.toAList_cons, sumBy_insert, map_cons, sum_cons]
    omega

theorem exactState_windowTotal_le (h : Accounts c t a) {now windowMs : ℕ} (hle : t ≤ now)
    (htimeout : c.reservationTimeoutMs ≤ windowMs) (key : String) :
    (exactState c key now a.charges).windowTotal now windowMs ≤
      chargedWithin key now windowMs a.charges := by
  have hsettled : (((exactState c key now a.charges).settled.filter fun e =>
      now - e.atMs < windowMs).map Usage.tokens).sum = total Charge.amount (fun e =>
        e.key = key ∧ now - e.admittedAtMs < windowMs ∧ ¬ live c now e) a.charges := by
    simp only [exactState, total, filter_map, map_map, filter_filter]
    refine congrArg List.sum (congrArg (List.map Charge.amount) (filter_congr fun e _ => ?_))
    simp [Bool.and_left_comm]
  have hactive : sumBy ActiveReservation.estimate (exactState c key now a.charges).active ≤
      total Charge.amount (fun e => e.key = key ∧ live c now e) a.charges := by
    refine (sumBy_toAList_le _).trans (le_of_eq ?_)
    simp only [total, map_map]
    refine congrArg List.sum (map_congr_left fun e he => ?_)
    have hlive := (mem_filter.mp he).2
    simp only [live, decide_eq_true_eq] at hlive
    simp [Charge.amount, hlive.2.1]
  have hlive : ∀ e ∈ a.charges, (decide (e.key = key ∧ live c now e)) =
      (decide (e.key = key ∧ e.admittedAtMs ≤ now ∧ now < e.admittedAtMs + windowMs) &&
        live c now e) := by
    intro e he
    have hpast := (h.past e he).trans hle
    rw [Bool.eq_iff_iff]
    simp only [live, Bool.and_eq_true, decide_eq_true_eq]
    constructor
    · rintro ⟨hkey, hnone, hlt⟩
      exact ⟨⟨hkey, hpast, by omega⟩, hnone, hlt⟩
    · rintro ⟨⟨hkey, -⟩, hlive⟩
      exact ⟨hkey, hlive⟩
  have hgone : ∀ e ∈ a.charges,
      (decide (e.key = key ∧ now - e.admittedAtMs < windowMs ∧ ¬ live c now e)) =
        (decide (e.key = key ∧ e.admittedAtMs ≤ now ∧ now < e.admittedAtMs + windowMs) &&
          !live c now e) := by
    intro e he
    have hpast := (h.past e he).trans hle
    have hin : now < e.admittedAtMs + windowMs ↔ now - e.admittedAtMs < windowMs := by omega
    simp [hpast, hin, Bool.and_assoc]
  have hsplit := total_split Charge.amount (fun e => e.key = key ∧ e.admittedAtMs ≤ now ∧
    now < e.admittedAtMs + windowMs) (live c now) a.charges
  rw [← total_congr hlive, ← total_congr hgone] at hsplit
  rw [KeyState.windowTotal, hsettled, chargedWithin, hsplit]
  omega

theorem exact_of_admitted (hw : Windows c) (h : Accounts c t a) {request : ReserveRequest}
    {id estimate usageAfter remaining : ℕ} (hle : t ≤ request.nowMs)
    (hnow : request.nowMs ≤ u64Max)
    (hsmall : ∀ b ∈ c.budgets,
      chargedWithin request.key request.nowMs b.windowMs a.charges ≤ i64Max)
    (hadmitted : (ValkeySlidingWindow.reserve c request.nowMs a.store request).2 =
      .ok (.admitted id estimate usageAfter remaining)) :
    (∀ b ∈ c.budgets, satAdd u64Max (chargedWithin request.key request.nowMs b.windowMs a.charges)
      request.estimate ≤ b.capacity) ∧
      ((exactState c request.key request.nowMs a.charges).judge (exactConfig c) request.nowMs
        request.estimate).exhausted = none := by
  have hcharged : ∀ b ∈ c.budgets, satAdd u64Max
      (chargedWithin request.key request.nowMs b.windowMs a.charges) request.estimate ≤
        b.capacity := by
    intro b hb
    have hfits := reserve_admitted hadmitted b hb
    have hcounted := (counted_bounds hw h hle hnow request.key hb).1
    have := hsmall b hb
    simp only [satAdd] at *
    omega
  refine ⟨hcharged, judge_fits.mpr fun b hb => ?_⟩
  have htotal := exactState_windowTotal_le h hle (hw.timeout b hb) request.key
  have := hcharged b hb
  rw [usageInWindow_eq]
  simp only [satAdd] at *
  omega

end Exact

/-- After every run on one clock and at every later instant, a budget's counters hold at least
the charges of the admissions in its window, and at most those in the window and the sub-window
before it, as far as 64-bit counters reach. What is admitted on such counts fits the exact
ledger of the same admissions. -/
theorem sub_windows_count_late (c : ValkeySlidingWindowConfig) (windows : Windows c)
    (calls : List Call) (ordered : Ordered Call.nowMs 0 calls)
    (inRange : Along (step c) (InRange c) Account.new calls) (now : ℕ)
    (hlast : lastTime Call.nowMs 0 calls ≤ now) (hnow : now ≤ u64Max) (key : String) :
    let a := final (step c) Account.new calls
    (∀ b ∈ c.budgets, chargedWithin key now b.windowMs a.charges ≤ i64Max →
      chargedWithin key now b.windowMs a.charges ≤
        countedUsage (countersAt a.store now key now b)) ∧
    (∀ b ∈ c.budgets, countedUsage (countersAt a.store now key now b) ≤
      chargedWithin key now (b.windowMs + bucketMs b.windowMs) a.charges) ∧
    (∀ request id estimate usageAfter remaining, request.key = key → request.nowMs = now →
      (∀ b ∈ c.budgets, chargedWithin key now b.windowMs a.charges ≤ i64Max) →
      (reserve c now a.store request).2 = .ok (.admitted id estimate usageAfter remaining) →
        (∀ b ∈ c.budgets, satAdd u64Max (chargedWithin key now b.windowMs a.charges)
          request.estimate ≤ b.capacity) ∧
        ((exactState c key now a.charges).judge (exactConfig c) now
          request.estimate).exhausted = none) := by
  intro a
  have h : Accounts c (lastTime Call.nowMs 0 calls) a := accounts_run windows ordered inRange
  refine ⟨fun b hb hsmall => ?_, fun b hb => (counted_bounds windows h hlast hnow key hb).2, ?_⟩
  · have hlow := (counted_bounds windows h hlast hnow key hb).1
    rwa [min_eq_left hsmall] at hlow
  · rintro request id estimate usageAfter remaining rfl rfl hsmall hadmitted
    exact exact_of_admitted windows h hlast hnow hsmall hadmitted

/-- Two budgets share the counters of one width; one admission is settled above its estimate
after its sub-window has ended. -/
theorem sub_windows_count_late_shared_width :
    let c : ValkeySlidingWindowConfig := ⟨[⟨1000, 90⟩, ⟨60000, 100⟩], 1000, 4, 4⟩
    let a := final (step c) Account.new
      [.reserve ⟨"k", 30, 500⟩, .reconcile ⟨"k", 1, some 35, 1200⟩, .reserve ⟨"k", 20, 1400⟩]
    countedUsage (countersAt a.store 1600 "k" 1600 ⟨1000, 90⟩) = 55 ∧
      chargedWithin "k" 1600 1000 a.charges ≤
        countedUsage (countersAt a.store 1600 "k" 1600 ⟨1000, 90⟩) ∧
      countedUsage (countersAt a.store 1600 "k" 1600 ⟨1000, 90⟩) ≤
        chargedWithin "k" 1600 (1000 + bucketMs 1000) a.charges ∧
      ((exactState c "k" 1600 a.charges).judge (exactConfig c) 1600 30).exhausted = none := by
  have h := sub_windows_count_late ⟨[⟨1000, 90⟩, ⟨60000, 100⟩], 1000, 4, 4⟩
    ⟨by decide, by decide⟩
    [.reserve ⟨"k", 30, 500⟩, .reconcile ⟨"k", 1, some 35, 1200⟩, .reserve ⟨"k", 20, 1400⟩]
    (by decide)
    ⟨⟨⟨by decide, by decide⟩, fits_of_total (by decide)⟩,
      ⟨show 1200 ≤ u64Max by decide, fits_of_total (by decide)⟩,
      ⟨⟨by decide, by decide⟩, fits_of_total (by decide)⟩, trivial⟩
    1600 (by decide) (by decide) "k"
  refine ⟨by decide, h.1 ⟨1000, 90⟩ (by decide) (by decide), h.2.1 ⟨1000, 90⟩ (by decide), ?_⟩
  exact (h.2.2 ⟨"k", 30, 1600⟩ 3 30 85 5 rfl rfl (by decide) (by decide +kernel)).2

/-- An estimate that no signed counter holds is counted one token short. -/
theorem large_estimate_counted_short :
    let c : ValkeySlidingWindowConfig := ⟨[⟨60000, u64Max⟩], 1000, 4, 4⟩
    let calls : List Call := [.reserve ⟨"k", 2 ^ 63, 0⟩]
    let a := final (step c) Account.new calls
    Windows c ∧ Ordered Call.nowMs 0 calls ∧ (∀ call ∈ calls, call.Typed) ∧
      (reserve c 0 Store.new ⟨"k", 2 ^ 63, 0⟩).2 =
        .ok (.admitted 1 (2 ^ 63) (2 ^ 63) (2 ^ 63 - 1)) ∧
      countedUsage (countersAt a.store 0 "k" 0 ⟨60000, u64Max⟩) <
        chargedWithin "k" 0 60000 a.charges := by
  refine ⟨⟨by decide, by decide⟩, by decide, ?_, by decide +kernel, by decide⟩
  intro call hcall
  obtain rfl := mem_singleton.mp hcall
  exact ⟨by decide, by decide⟩

end SubWindowAccounting
