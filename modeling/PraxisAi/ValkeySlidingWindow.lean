import PraxisAi.ValkeyCommands
import PraxisAi.SubWindows
import PraxisAi.SlidingWindowLedger

/-! # The sliding window shared through Valkey

`token_rate_limit/valkey/sliding_window.rs`. Usage is kept in one counter for each sub-window;
budgets whose sub-windows are equally wide share their counters. Keys are named by their opaque
identifiers, and every command runs at a time of the server's clock. -/
namespace ValkeySlidingWindow

open List Function
open ExpiringKeys KeyedMaps SaturatingArithmetic ReservationLedger StateBackend ValkeyCommands
open SubWindows
open SlidingWindowLedger (Budget)

/-- One set of counters, shared by every budget of its width. -/
structure CounterWidth where
  bucketMs : ℕ
  ttlMs : ℕ
  deriving DecidableEq

/-- The width's counters get the longer of two lifetimes, or are new. -/
def addWidth (width ttlMs : ℕ) : List CounterWidth → List CounterWidth
  | [] => [⟨width, ttlMs⟩]
  | known :: rest =>
    if known.bucketMs = width then { known with ttlMs := max known.ttlMs ttlMs } :: rest
    else known :: addWidth width ttlMs rest

/-- A counter outlives the window, the reservations in it and one sub-window. -/
def counterTtlMs (reservationTimeoutMs : ℕ) (budget : Budget) : ℕ :=
  satAdd u64Max (satAdd u64Max budget.windowMs reservationTimeoutMs) (bucketMs budget.windowMs)

def counterWidths (budgets : List Budget) (reservationTimeoutMs : ℕ) : List CounterWidth :=
  budgets.foldl (fun widths budget => addWidth (bucketMs budget.windowMs)
    (counterTtlMs reservationTimeoutMs budget) widths) []

structure ValkeySlidingWindowConfig where
  budgets : List Budget
  reservationTimeoutMs : ℕ
  maxKeys : ℕ
  maxActiveReservations : ℕ

namespace ValkeySlidingWindowConfig

variable (c : ValkeySlidingWindowConfig)

def widths : List CounterWidth := counterWidths c.budgets c.reservationTimeoutMs

def limit : ℕ := ((c.budgets.map Budget.capacity).min?).getD 0

def stateTtlMs : ℕ := ((c.widths.map CounterWidth.ttlMs).max?).getD 1000

end ValkeySlidingWindowConfig

structure Store where
  usage : String → ℕ → ℕ → Option (Slot ℤ)
  reservation : String → ℕ → Cell (List Char)
  seq : ℕ
  active : Option (Slot (SortedSet (String × ℕ)))
  keys : Option (Slot (SortedSet String))

def Store.new : Store := ⟨fun _ _ _ => none, fun _ _ => .empty, 0, none, none⟩

structure WindowReads where
  buckets : List (List (Option ℤ))
  active : ℕ
  keys : ℕ
  keyKnown : Bool

def countersAt (s : Store) (t : ℕ) (id : String) (nowMs : ℕ) (budget : Budget) :
    List (Option ℤ) :=
  (BucketRange.covering nowMs budget.windowMs).indexes.map fun i =>
    (visible t (s.usage id (bucketMs budget.windowMs) i)).map Slot.value

def readWindow (c : ValkeySlidingWindowConfig) (s : Store) (t : ℕ) (id : String) (nowMs : ℕ) :
    Store × WindowReads :=
  let active := zremrangebyscore t nowMs s.active
  let keys := zremrangebyscore t nowMs s.keys
  ({ s with active := active, keys := keys },
    { buckets := c.budgets.map (countersAt s t id nowMs)
      active := zcard t active
      keys := zcard t keys
      keyKnown := (zscore t id keys).isSome })

/-- The counters summed; a negative one counts as zero. -/
def countedUsage (counters : List (Option ℤ)) : ℕ :=
  ((counters.filterMap fun value => value.map (max · 0)).foldl
    (fun a b => clampI64 (a + b)) 0).toNat

def freeingIndex (needed : ℕ) : ℕ → ℕ → List (ℕ × Option ℤ) → ℕ
  | _, freeing, [] => freeing
  | expiring, _, (index, value) :: rest =>
    let expiring := satAdd u64Max expiring (value.getD 0).toNat
    if needed ≤ expiring then index else freeingIndex needed expiring index rest

def retryWhenEnoughUsageExpires (counters : List (Option ℤ)) (budget : Budget)
    (nowMs after : ℕ) : ℕ :=
  let range := BucketRange.covering nowMs budget.windowMs
  retryAfterMs nowMs budget.windowMs
    (freeingIndex (after - budget.capacity) 0 range.first (range.indexes.zip counters))

structure BudgetUsage where
  remaining : ℕ
  after : ℕ
  retryAfterMs : ℕ
  deriving DecidableEq

def evaluateBudget (counters : List (Option ℤ)) (budget : Budget) (estimate nowMs : ℕ) :
    BudgetUsage :=
  let usage := countedUsage counters
  let after := satAdd u64Max usage estimate
  { remaining := budget.capacity - usage
    after := after
    retryAfterMs :=
      if after ≤ budget.capacity then 0
      else retryWhenEnoughUsageExpires counters budget nowMs after }

inductive Decision where
  | admission (maxUsage remaining : ℕ)
  | denied (retryAfterMs remaining : ℕ) (reason : DenialReason)
  deriving DecidableEq

def denial (c : ValkeySlidingWindowConfig) (reads : WindowReads) (retryAfter : ℕ) :
    Option (ℕ × DenialReason) :=
  if c.maxActiveReservations ≤ reads.active then
    some (c.reservationTimeoutMs, .reservationCapacity)
  else if 0 < retryAfter then some (retryAfter, .windowCapacity)
  else none

def decideReserve (c : ValkeySlidingWindowConfig) (reads : WindowReads) (estimate nowMs : ℕ) :
    Decision :=
  if !reads.keyKnown && c.maxKeys ≤ reads.keys then .denied 0 0 .keyCapacity
  else
    let usages := (c.budgets.zipIdx).map fun (budget, i) =>
      evaluateBudget (reads.buckets.getD i []) budget estimate nowMs
    let remaining := usages.foldl (fun r u => min r u.remaining) c.limit
    let maxUsage := usages.foldl (fun m u => max m u.after) 0
    let retryAfter := usages.foldl (fun r u => max r u.retryAfterMs) 0
    match denial c reads retryAfter with
    | some (retryAfterMs, reason) => .denied retryAfterMs remaining reason
    | none => .admission maxUsage (remaining - estimate)

def setUsage (s : Store) (id : String) (width index : ℕ) (slot : Option (Slot ℤ)) : Store :=
  { s with
    usage := fun k w i => if k = id ∧ w = width ∧ i = index then slot else s.usage k w i }

/-- One counter of `add_usage_delta`; a refused increment still extends the expiry. -/
def addUsage (t ttlMs : ℕ) (delta : ℤ) (slot : Option (Slot ℤ)) : Option (Slot ℤ) :=
  ((incrBy t delta slot).or (visible t slot)).map (extendSharedTtl t ttlMs)

/-- The counters of one admission time, changed once for each width; false if an increment was
refused. -/
def addUsageDelta (t : ℕ) (id : String) (admittedAtMs : ℕ) (delta : ℤ) :
    List CounterWidth → Store → Store × Bool
  | [], s => (s, true)
  | width :: widths, s =>
    let index := bucketIndex admittedAtMs width.bucketMs
    let slot := s.usage id width.bucketMs index
    let (after, ok) := addUsageDelta t id admittedAtMs delta widths
      (setUsage s id width.bucketMs index (addUsage t width.ttlMs delta slot))
    (after, (incrBy t delta slot).isSome && ok)

def retainKey (c : ValkeySlidingWindowConfig) (t : ℕ) (s : Store) (id : String) (nowMs : ℕ) :
    Store :=
  { s with
    keys := extendSharedTtl t c.stateTtlMs
      (zaddGt t (satAdd u64Max nowMs c.stateTtlMs) id s.keys) }

def recordActiveReservation (c : ValkeySlidingWindowConfig) (t : ℕ) (s : Store)
    (request : ReserveRequest) (reservationId : ℕ) : Store :=
  let slot : Slot (List Char) :=
    ⟨formatReservation request.estimate request.nowMs, some (t + c.reservationTimeoutMs)⟩
  let cell := (s.reservation request.key reservationId).write (some slot)
  let s := { s with
    reservation := update s.reservation request.key
      (update (s.reservation request.key) reservationId cell)
    active := extendSharedTtl t c.stateTtlMs (zadd t
      (satAdd u64Max request.nowMs c.reservationTimeoutMs) (request.key, reservationId) s.active) }
  retainKey c t s request.key request.nowMs

def overflow : BackendError := commandError "increment or decrement would overflow"

def admitRequest (c : ValkeySlidingWindowConfig) (t : ℕ) (s : Store) (request : ReserveRequest) :
    Store × Except BackendError ℕ :=
  let id := s.seq + 1
  let (s, ok) := addUsageDelta t request.key request.nowMs (toI64 request.estimate) c.widths
    { s with seq := id }
  (recordActiveReservation c t s request id, if ok then .ok id else .error overflow)

def reserve (c : ValkeySlidingWindowConfig) (t : ℕ) (s : Store) (request : ReserveRequest) :
    Store × Except BackendError BackendReserve :=
  let (s, reads) := readWindow c s t request.key request.nowMs
  match decideReserve c reads request.estimate request.nowMs with
  | .denied retryAfterMs remaining reason => (s, .ok (.denied retryAfterMs reason remaining))
  | .admission maxUsage remaining =>
    let (s, id) := admitRequest c t s request
    (s, id.map fun id => .admitted id request.estimate maxUsage remaining)

def readReservation (s : Store) (t : ℕ) (request : ReconcileRequest) : Option (List Char) :=
  (visible t (s.reservation request.key request.reservationId).slot).map Slot.value

def settlementPipeline (c : ValkeySlidingWindowConfig) (t : ℕ) (s : Store)
    (request : ReconcileRequest) (admittedAtMs : ℕ) (delta : ℤ) : Store × Bool :=
  let (s, ok) := addUsageDelta t request.key admittedAtMs delta c.widths s
  let s := retainKey c t s request.key request.nowMs
  let cell := (s.reservation request.key request.reservationId).write none
  ({ s with
      reservation := update s.reservation request.key
        (update (s.reservation request.key) request.reservationId cell)
      active := zrem t (request.key, request.reservationId) s.active }, ok)

/-- What a reconcile does once it has read: fail, do nothing, or try to commit a delta. -/
inductive ReconcilePlan where
  | failed (error : BackendError)
  | noop
  | commit (estimate admittedAtMs actual : ℕ)
  deriving DecidableEq

def planReconcile (value : Option (List Char)) (actual : Option ℕ) : ReconcilePlan :=
  match value with
  | none => .noop
  | some value =>
    match parseReservation value with
    | .error e => .failed e
    | .ok (estimate, admittedAtMs) => .commit estimate admittedAtMs (actual.getD estimate)

def settlementDelta (estimate actual : ℕ) : ℤ := clampI64 (toI64 actual - toI64 estimate)

def settlementReply (estimate actual : ℕ) (ok : Bool) : Except BackendError BackendSettlement :=
  if ok then .ok (.applied actual (estimate - actual) (actual - estimate)) else .error overflow

/-- One attempt that nothing interferes with, at one time of the server's clock. -/
def reconcile (c : ValkeySlidingWindowConfig) (t : ℕ) (s : Store) (request : ReconcileRequest) :
    Store × Except BackendError BackendSettlement :=
  match planReconcile (readReservation s t request) request.actual with
  | .failed e => (s, .error e)
  | .noop => (s, .ok .noop)
  | .commit estimate admittedAtMs actual =>
    let (s, ok) := settlementPipeline c t s request admittedAtMs (settlementDelta estimate actual)
    (s, settlementReply estimate actual ok)

section Widths

theorem addWidth_widths (width ttlMs : ℕ) (widths : List CounterWidth) :
    (addWidth width ttlMs widths).map CounterWidth.bucketMs =
      if width ∈ widths.map CounterWidth.bucketMs then widths.map CounterWidth.bucketMs
      else widths.map CounterWidth.bucketMs ++ [width] := by
  induction widths with
  | nil => simp [addWidth]
  | cons known rest ih =>
    by_cases hknown : known.bucketMs = width
    · simp [addWidth, hknown]
    · simp only [addWidth, hknown, if_false, map_cons, ih, mem_cons, Ne.symm hknown, false_or]
      split <;> rfl

theorem addWidth_mem (width ttlMs : ℕ) (widths : List CounterWidth) :
    ∃ known ∈ addWidth width ttlMs widths, known.bucketMs = width ∧ ttlMs ≤ known.ttlMs := by
  induction widths with
  | nil => exact ⟨_, mem_singleton_self _, rfl, le_rfl⟩
  | cons known rest ih =>
    by_cases hknown : known.bucketMs = width
    · simp only [addWidth, hknown, if_true]
      exact ⟨_, mem_cons_self, rfl, le_max_right _ _⟩
    · simp only [addWidth, hknown, if_false]
      obtain ⟨k, hk, hspec⟩ := ih
      exact ⟨k, mem_cons_of_mem _ hk, hspec⟩

theorem addWidth_keeps (width ttlMs : ℕ) {widths : List CounterWidth} {known : CounterWidth}
    (h : known ∈ widths) :
    ∃ k ∈ addWidth width ttlMs widths, k.bucketMs = known.bucketMs ∧ known.ttlMs ≤ k.ttlMs := by
  induction widths with
  | nil => cases h
  | cons first rest ih =>
    by_cases hfirst : first.bucketMs = width
    · simp only [addWidth, hfirst, if_true]
      rcases mem_cons.mp h with rfl | h
      · exact ⟨_, mem_cons_self, hfirst.symm, le_max_left _ _⟩
      · exact ⟨known, mem_cons_of_mem _ h, rfl, le_rfl⟩
    · simp only [addWidth, hfirst, if_false]
      rcases mem_cons.mp h with rfl | h
      · exact ⟨known, mem_cons_self, rfl, le_rfl⟩
      · obtain ⟨k, hk, hspec⟩ := ih h
        exact ⟨k, mem_cons_of_mem _ hk, hspec⟩

/-- Widths are listed once, each is that of a budget, and each budget finds its own with a
lifetime that suffices. -/
structure WidthsOf (timeoutMs : ℕ) (budgets : List Budget) (widths : List CounterWidth) : Prop where
  nodup : (widths.map CounterWidth.bucketMs).Nodup
  found : ∀ budget ∈ budgets, ∃ known ∈ widths, known.bucketMs = bucketMs budget.windowMs ∧
    counterTtlMs timeoutMs budget ≤ known.ttlMs
  lasting : ∀ known ∈ widths, ∃ budget ∈ budgets, known.bucketMs = bucketMs budget.windowMs ∧
    counterTtlMs timeoutMs budget ≤ known.ttlMs

theorem addWidth_origin {width ttlMs : ℕ} {widths : List CounterWidth} {known : CounterWidth}
    (h : known ∈ addWidth width ttlMs widths) :
    (known.bucketMs = width ∧ ttlMs ≤ known.ttlMs) ∨
      ∃ old ∈ widths, known.bucketMs = old.bucketMs ∧ old.ttlMs ≤ known.ttlMs := by
  induction widths with
  | nil =>
    obtain rfl := mem_singleton.mp h
    exact .inl ⟨rfl, le_rfl⟩
  | cons first rest ih =>
    by_cases hfirst : first.bucketMs = width
    · simp only [addWidth, hfirst, if_true] at h
      rcases mem_cons.mp h with rfl | h
      · exact .inl ⟨rfl, le_max_right _ _⟩
      · exact .inr ⟨known, mem_cons_of_mem _ h, rfl, le_rfl⟩
    · simp only [addWidth, hfirst, if_false] at h
      rcases mem_cons.mp h with rfl | h
      · exact .inr ⟨known, mem_cons_self, rfl, le_rfl⟩
      · rcases ih h with hnew | ⟨old, hold, hspec⟩
        · exact .inl hnew
        · exact .inr ⟨old, mem_cons_of_mem _ hold, hspec⟩

theorem WidthsOf.add {timeoutMs : ℕ} {budgets : List Budget} {widths : List CounterWidth}
    (h : WidthsOf timeoutMs budgets widths) (budget : Budget) :
    WidthsOf timeoutMs (budgets ++ [budget])
      (addWidth (bucketMs budget.windowMs) (counterTtlMs timeoutMs budget) widths) := by
  constructor
  · rw [addWidth_widths]
    split
    · exact h.nodup
    · next hnew =>
      refine nodup_append.mpr ⟨h.nodup, nodup_singleton _, ?_⟩
      rintro a ha b hb rfl
      exact hnew (mem_singleton.mp hb ▸ ha)
  · intro b hb
    rcases mem_append.mp hb with hb | hb
    · obtain ⟨known, hknown, hwidth, httl⟩ := h.found b hb
      obtain ⟨k, hk, hsame, hlonger⟩ := addWidth_keeps (bucketMs budget.windowMs)
        (counterTtlMs timeoutMs budget) hknown
      exact ⟨k, hk, hsame.trans hwidth, httl.trans hlonger⟩
    · obtain rfl := mem_singleton.mp hb
      exact addWidth_mem _ _ _
  · intro known hknown
    rcases addWidth_origin hknown with hnew | ⟨old, hold, hwidth, httl⟩
    · exact ⟨budget, by simp, hnew⟩
    · obtain ⟨b, hb, hsame, hlonger⟩ := h.lasting old hold
      exact ⟨b, mem_append_left _ hb, hwidth.trans hsame, hlonger.trans httl⟩

theorem counterWidths_spec (budgets : List Budget) (timeoutMs : ℕ) :
    WidthsOf timeoutMs budgets (counterWidths budgets timeoutMs) := by
  have general : ∀ rest done widths, WidthsOf timeoutMs done widths →
      WidthsOf timeoutMs (done ++ rest) (rest.foldl (fun widths budget =>
        addWidth (bucketMs budget.windowMs) (counterTtlMs timeoutMs budget) widths) widths) := by
    intro rest
    induction rest with
    | nil =>
      intro done widths h
      simpa using h
    | cons budget rest ih =>
      intro done widths h
      have hnext := ih (done ++ [budget]) _ (h.add budget)
      simpa using hnext
  exact general budgets [] [] ⟨nodup_nil, by simp, by simp⟩

end Widths

section Decisions

theorem foldl_max_eq_zero {α : Type} {f : α → ℕ} {l : List α} {n : ℕ}
    (h : l.foldl (fun m a => max m (f a)) n = 0) : n = 0 ∧ ∀ a ∈ l, f a = 0 := by
  induction l generalizing n with
  | nil => exact ⟨h, by simp⟩
  | cons a l ih =>
    obtain ⟨hmax, hl⟩ := ih h
    obtain ⟨hn, ha⟩ := Nat.max_eq_zero_iff.mp hmax
    exact ⟨hn, List.forall_mem_cons.mpr ⟨ha, hl⟩⟩

theorem evaluateBudget_fits {counters : List (Option ℤ)} {budget : Budget} {estimate nowMs : ℕ}
    (h : (evaluateBudget counters budget estimate nowMs).retryAfterMs = 0) :
    satAdd u64Max (countedUsage counters) estimate ≤ budget.capacity := by
  by_contra hover
  have hone : 1 ≤ retryWhenEnoughUsageExpires counters budget nowMs
      (satAdd u64Max (countedUsage counters) estimate) := le_max_right _ _
  simp only [evaluateBudget, hover, if_false] at h
  omega

variable {c : ValkeySlidingWindowConfig} {s : Store} {t : ℕ}

theorem decideReserve_fits {reads : WindowReads} {estimate nowMs maxUsage remaining : ℕ}
    (h : decideReserve c reads estimate nowMs = .admission maxUsage remaining) {b : Budget} {i : ℕ}
    (hb : (b, i) ∈ c.budgets.zipIdx) :
    satAdd u64Max (countedUsage (reads.buckets.getD i [])) estimate ≤ b.capacity := by
  simp only [decideReserve] at h
  split at h
  · cases h
  · split at h
    · cases h
    · next hdenial =>
      simp only [denial] at hdenial
      split at hdenial
      · cases hdenial
      · split at hdenial
        · cases hdenial
        · next hretry =>
          have hnone := (foldl_max_eq_zero (Nat.eq_zero_of_not_pos hretry)).2
          exact evaluateBudget_fits (hnone _ (mem_map_of_mem hb))

/-- Whatever is admitted fits what the counters of every budget add up to. -/
theorem reserve_admitted {request : ReserveRequest} {id estimate usageAfter remaining : ℕ}
    (h : (reserve c t s request).2 = .ok (.admitted id estimate usageAfter remaining)) :
    ∀ b ∈ c.budgets, satAdd u64Max
      (countedUsage (countersAt s t request.key request.nowMs b)) request.estimate ≤
        b.capacity := by
  intro b hb
  simp only [reserve] at h
  split at h
  · cases h
  · next hdecide =>
    obtain ⟨i, hi, rfl⟩ := getElem_of_mem hb
    have hfits := decideReserve_fits hdecide (b := c.budgets[i]) (i := i)
      (mem_zipIdx_iff_getElem?.mpr (getElem?_eq_getElem hi))
    simpa [readWindow, hi] using hfits

end Decisions

section Deltas

variable {t admittedAtMs : ℕ} {id : String} {delta : ℤ} {widths : List CounterWidth} {s : Store}

@[simp] theorem addUsageDelta_reservation :
    (addUsageDelta t id admittedAtMs delta widths s).1.reservation = s.reservation := by
  induction widths generalizing s with
  | nil => rfl
  | cons width widths ih => exact ih

@[simp] theorem addUsageDelta_seq :
    (addUsageDelta t id admittedAtMs delta widths s).1.seq = s.seq := by
  induction widths generalizing s with
  | nil => rfl
  | cons width widths ih => exact ih

theorem addUsageDelta_other {k : String} {w i : ℕ}
    (h : ¬ (k = id ∧ w ∈ widths.map CounterWidth.bucketMs ∧ i = bucketIndex admittedAtMs w)) :
    (addUsageDelta t id admittedAtMs delta widths s).1.usage k w i = s.usage k w i := by
  induction widths generalizing s with
  | nil => rfl
  | cons width widths ih =>
    simp only [map_cons, mem_cons] at h
    refine (ih fun hrest => h ⟨hrest.1, .inr hrest.2.1, hrest.2.2⟩).trans ?_
    refine if_neg fun hthis => h ⟨hthis.1, .inl hthis.2.1, ?_⟩
    rw [hthis.2.2, hthis.2.1]

theorem addUsageDelta_mem (hnodup : (widths.map CounterWidth.bucketMs).Nodup)
    {width : CounterWidth} (hmem : width ∈ widths) :
    (addUsageDelta t id admittedAtMs delta widths s).1.usage id width.bucketMs
        (bucketIndex admittedAtMs width.bucketMs) =
      addUsage t width.ttlMs delta
        (s.usage id width.bucketMs (bucketIndex admittedAtMs width.bucketMs)) := by
  induction widths generalizing s with
  | nil => cases hmem
  | cons first widths ih =>
    obtain ⟨hnew, hrest⟩ := nodup_cons.mp hnodup
    rcases mem_cons.mp hmem with rfl | hmem
    · refine (addUsageDelta_other fun h => hnew h.2.1).trans ?_
      simp [setUsage]
    · have hne : width.bucketMs ≠ first.bucketMs := by
        intro heq
        exact hnew (heq ▸ mem_map_of_mem hmem)
      refine (ih hrest hmem).trans ?_
      simp [setUsage, hne]

theorem addUsageDelta_ok (hnodup : (widths.map CounterWidth.bucketMs).Nodup)
    (h : ∀ width ∈ widths, (incrBy t delta (s.usage id width.bucketMs
      (bucketIndex admittedAtMs width.bucketMs))).isSome) :
    (addUsageDelta t id admittedAtMs delta widths s).2 = true := by
  induction widths generalizing s with
  | nil => rfl
  | cons first widths ih =>
    obtain ⟨hnew, hrest⟩ := nodup_cons.mp hnodup
    simp only [addUsageDelta, Bool.and_eq_true]
    refine ⟨h first mem_cons_self, ih hrest fun width hwidth => ?_⟩
    have hne : width.bucketMs ≠ first.bucketMs := by
      intro heq
      exact hnew (heq ▸ mem_map_of_mem hwidth)
    simpa [setUsage, hne] using h width (mem_cons_of_mem _ hwidth)

end Deltas

end ValkeySlidingWindow
