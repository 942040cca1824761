import PraxisAi.LedgerViews
import PraxisAi.SlidingWindowReference

/-! # The retry hint of the local sliding window

A denied request is told to come back after the last settled charge of its key has left every
window, and not before the reservation timeout. What the hint leaves out are the open
reservations: one that times out meanwhile is charged at its admission and counts until its window
has passed. -/
namespace LocalRetryHints

open List
open KeyedMaps SaturatingArithmetic SlidingWindowReference LedgerViews SlidingWindowLedger
open ReservationLedger hiding reserve reconcile cleanup step Ledger

def asUsage (r : ActiveReservation) : Usage := ⟨r.createdAtMs, r.estimate⟩

/-- What a key holds, each settled charge and each active reservation with its weight. -/
def weigh (settled : Usage → ℕ) (active : ActiveReservation → ℕ) (s : KeyState) : ℕ :=
  (s.settled.map settled).sum + sumBy active s.active

def insideTokens (atMs windowMs : ℕ) (e : Usage) : ℕ :=
  if atMs - e.atMs < windowMs then e.tokens else 0

/-- The tokens of a reservation that is still open or, timed out, still inside a window. -/
def openTokens (c : LedgerConfig) (atMs windowMs : ℕ) (r : ActiveReservation) : ℕ :=
  if atMs - r.createdAtMs < c.reservationTimeoutMs ∨ atMs - r.createdAtMs < windowMs then
    r.estimate else 0

/-- The tokens that will count against a window at an instant if nothing happens until then. -/
def countsAt (c : LedgerConfig) (atMs windowMs : ℕ) (s : KeyState) : ℕ :=
  weigh (insideTokens atMs windowMs) (openTokens c atMs windowMs) s

section Reaping

variable {c : LedgerConfig} {s : KeyState} {f : Usage → ℕ} {g : ActiveReservation → ℕ}

theorem weigh_chargeExpired {id : ℕ} (h : ∀ r, s.active.lookup id = some r → g r = f (asUsage r)) :
    weigh f g (s.chargeExpired id) = weigh f g s := by
  unfold KeyState.chargeExpired
  cases hr : s.active.lookup id with
  | none => rfl
  | some r =>
    have hsum := sumBy_erase g hr
    have hg := h r hr
    simp only [weigh, map_append, map_cons, map_nil, sum_append, sum_cons, sum_nil, asUsage] at *
    omega

/-- Charging the reservations that time out moves weight and keeps it. -/
theorem weigh_foldl_chargeExpired (ids : List ℕ) (s : KeyState)
    (h : ∀ id ∈ ids, ∀ r, s.active.lookup id = some r → g r = f (asUsage r)) :
    weigh f g (ids.foldl KeyState.chargeExpired s) = weigh f g s := by
  induction ids generalizing s with
  | nil => rfl
  | cons id ids ih =>
    rw [List.forall_mem_cons] at h
    rw [foldl_cons, ih, weigh_chargeExpired h.1]
    intro id' hid' r hr
    rw [chargeExpired_active] at hr
    by_cases heq : id' = id
    · rw [heq, AList.lookup_erase] at hr
      cases hr
    · rw [AList.lookup_erase_ne heq] at hr
      exact h.2 id' hid' r hr

theorem weigh_popAged {t : ℕ} (h : ∀ e ∈ s.settled, c.maxWindow ≤ t - e.atMs → f e = 0) :
    weigh f g (s.popAged c t) = weigh f g s := by
  have hsum : ∀ l : List Usage, (∀ e ∈ l, c.maxWindow ≤ t - e.atMs → f e = 0) →
      ((l.dropWhile fun e => decide (c.maxWindow ≤ t - e.atMs)).map f).sum = (l.map f).sum := by
    intro l
    induction l with
    | nil => exact fun _ => rfl
    | cons e l ih =>
      intro hl
      rw [List.forall_mem_cons] at hl
      by_cases haged : c.maxWindow ≤ t - e.atMs
      · rw [dropWhile_cons_of_pos (by simpa using haged), ih hl.2, map_cons,
          sum_cons, hl.1 haged, Nat.zero_add]
      · rw [dropWhile_cons_of_neg (by simpa using haged)]
  rw [weigh, KeyState.popAged, hsum _ h, weigh]

theorem countsAt_reap {b : Budget} (hb : b ∈ c.budgets) (o : IterOrder) {nowMs atMs : ℕ}
    (hle : nowMs ≤ atMs) (s : KeyState) :
    countsAt c atMs b.windowMs (s.reap c o nowMs).1 = countsAt c atMs b.windowMs s := by
  have hwindow := windowMs_le_maxWindow hb
  unfold countsAt
  simp only [KeyState.reap]
  rw [weigh_popAged, weigh_foldl_chargeExpired]
  · intro id hid r hr
    obtain ⟨r', hr', htimeout⟩ := mem_expiredIds.mp hid
    obtain rfl := Option.some.inj (hr'.symm.trans hr)
    have hclosed : ¬atMs - r'.createdAtMs < c.reservationTimeoutMs := by omega
    by_cases hinside : atMs - r'.createdAtMs < b.windowMs
    · rw [openTokens, if_pos (.inr hinside), insideTokens, asUsage, if_pos hinside]
    · rw [openTokens, if_neg (by tauto), insideTokens, asUsage, if_neg hinside]
  · intro e _ haged
    rw [insideTokens, if_neg (by omega)]

theorem windowTotal_reap {b : Budget} (hb : b ∈ c.budgets) (o : IterOrder) (atMs : ℕ)
    (s : KeyState) :
    (s.reap c o atMs).1.windowTotal atMs b.windowMs = countsAt c atMs b.windowMs s := by
  rw [← countsAt_reap hb o le_rfl s]
  have hopen : ∀ e ∈ (s.reap c o atMs).1.active.entries,
      openTokens c atMs b.windowMs e.2 = e.2.estimate := by
    intro e he
    have hlookup : (s.reap c o atMs).1.active.lookup e.1 = some e.2 :=
      Option.mem_def.mp (AList.mem_lookup_iff.mpr he)
    rw [reap_active, lookup_eraseAll] at hlookup
    by_cases hmem : e.1 ∈ (s.reap c o atMs).2
    · rw [if_pos hmem] at hlookup
      cases hlookup
    · rw [if_neg hmem] at hlookup
      have hyoung : atMs - e.2.createdAtMs < c.reservationTimeoutMs := by
        by_contra hold
        exact hmem (mem_expiredIds.mpr ⟨e.2, hlookup, by omega⟩)
      rw [openTokens, if_pos (.inl hyoung)]
  have hactive : sumBy (openTokens c atMs b.windowMs) (s.reap c o atMs).1.active =
      sumBy ActiveReservation.estimate (s.reap c o atMs).1.active := by
    unfold sumBy
    rw [map_congr_left hopen]
  have hsettled : ∀ l : List Usage, (l.map (insideTokens atMs b.windowMs)).sum =
      ((l.filter fun e => atMs - e.atMs < b.windowMs).map Usage.tokens).sum := by
    intro l
    induction l with
    | nil => rfl
    | cons e l ih =>
      by_cases hinside : atMs - e.atMs < b.windowMs
      · rw [map_cons, sum_cons, ih, insideTokens, if_pos hinside,
          filter_cons_of_pos (by simpa using hinside), map_cons, sum_cons]
      · rw [map_cons, sum_cons, ih, insideTokens, if_neg hinside,
          filter_cons_of_neg (by simpa using hinside), Nat.zero_add]
  rw [KeyState.windowTotal, countsAt, weigh, hactive, hsettled]

end Reaping

/-! ## The instant of the hint -/

/-- The charges of a key at an instant: the settled ones and the reservations that have timed
out. -/
def chargesAt (c : LedgerConfig) (nowMs : ℕ) (s : KeyState) : List Usage :=
  s.settled ++ ((s.active.entries.map (·.2)).filter fun r =>
    c.reservationTimeoutMs ≤ nowMs - r.createdAtMs).map asUsage

/-- The last instant at which a charge leaves a window, and not before the timeout. -/
def hintInstant (c : LedgerConfig) (nowMs : ℕ) (s : KeyState) : ℕ :=
  (c.budgets.flatMap fun b =>
    (chargesAt c nowMs s).map fun e => satAdd u64Max e.atMs b.windowMs).foldl
      max (nowMs + c.reservationTimeoutMs)

section Charges

variable {c : LedgerConfig} {nowMs : ℕ}

theorem mem_settled_foldl (ids : List ℕ) (hnodup : ids.Nodup) (s : KeyState) (e : Usage) :
    e ∈ (ids.foldl KeyState.chargeExpired s).settled ↔
      e ∈ s.settled ∨ ∃ id ∈ ids, ∃ r, s.active.lookup id = some r ∧ e = asUsage r := by
  simp only [foldl_chargeExpired_settled hnodup, mem_append, mem_filterMap,
    Option.map_eq_some_iff, asUsage, eq_comm (a := e)]

theorem mem_chargesAt {s : KeyState} {e : Usage} (o : IterOrder) :
    e ∈ chargesAt c nowMs s ↔ e ∈ ((expiredIds o nowMs c.reservationTimeoutMs s.active).foldl
      KeyState.chargeExpired s).settled := by
  rw [mem_settled_foldl _ (expiredIds_nodup _ _ _ _), chargesAt, mem_append]
  refine or_congr_right ?_
  simp only [mem_map, mem_filter, decide_eq_true_eq]
  constructor
  · rintro ⟨r, ⟨⟨entry, hentry, rfl⟩, htimeout⟩, rfl⟩
    have hlookup : s.active.lookup entry.1 = some entry.2 :=
      Option.mem_def.mp (AList.mem_lookup_iff.mpr hentry)
    exact ⟨entry.1, mem_expiredIds.mpr ⟨entry.2, hlookup, htimeout⟩, entry.2, hlookup, rfl⟩
  · rintro ⟨id, hid, r, hr, rfl⟩
    obtain ⟨r', hr', htimeout⟩ := mem_expiredIds.mp hid
    obtain rfl := Option.some.inj (hr'.symm.trans hr)
    exact ⟨r', ⟨⟨⟨id, r'⟩, AList.mem_lookup_iff.mp hr, rfl⟩, htimeout⟩, rfl⟩

theorem foldl_max_le {l : List ℕ} {n N : ℕ} :
    l.foldl max n ≤ N ↔ n ≤ N ∧ ∀ x ∈ l, x ≤ N := by
  induction l generalizing n with
  | nil => simp
  | cons x l ih => rw [foldl_cons, ih, List.forall_mem_cons, max_le_iff, and_assoc]

theorem max_getD_le {l : List ℕ} {d N : ℕ} :
    max (l.max?.getD d) d ≤ N ↔ d ≤ N ∧ ∀ x ∈ l, x ≤ N := by
  cases hmax : l.max? with
  | none =>
    rw [max?_eq_none_iff] at hmax
    simp [hmax]
  | some m =>
    obtain ⟨hmem, hle⟩ := max?_eq_some_iff.mp hmax
    rw [Option.getD_some, max_le_iff, and_comm]
    refine and_congr_right fun _ => ⟨fun hm x hx => (hle x hx).trans hm, fun h => h m hmem⟩

theorem hintInstant_le {s : KeyState} {N : ℕ} :
    hintInstant c nowMs s ≤ N ↔ nowMs + c.reservationTimeoutMs ≤ N ∧
      ∀ b ∈ c.budgets, ∀ e ∈ chargesAt c nowMs s, satAdd u64Max e.atMs b.windowMs ≤ N := by
  rw [hintInstant, foldl_max_le]
  simp only [mem_flatMap, mem_map]
  refine and_congr_right fun _ => ⟨?_, ?_⟩
  · intro h b hb e he
    exact h _ ⟨b, hb, e, he, rfl⟩
  · rintro h _ ⟨b, hb, e, he, rfl⟩
    exact h b hb e he

theorem retryAfterMs_le {s : KeyState} {N : ℕ} (hle : nowMs ≤ N) :
    nowMs + s.retryAfterMs c nowMs ≤ N ↔ nowMs + c.reservationTimeoutMs ≤ N ∧
      ∀ b ∈ c.budgets, ∀ e ∈ s.settled, satAdd u64Max e.atMs b.windowMs ≤ N := by
  have hsub : nowMs + s.retryAfterMs c nowMs ≤ N ↔ s.retryAfterMs c nowMs ≤ N - nowMs := by omega
  rw [hsub, KeyState.retryAfterMs, max_getD_le]
  simp only [mem_flatMap, KeyState.waits, mem_filterMap]
  constructor
  · rintro ⟨htimeout, hwaits⟩
    refine ⟨by omega, fun b hb e he => ?_⟩
    by_cases hpending : nowMs < satAdd u64Max e.atMs b.windowMs
    · have := hwaits _ ⟨b, hb, e, he, if_pos hpending⟩
      omega
    · omega
  · rintro ⟨htimeout, hexpiries⟩
    refine ⟨by omega, ?_⟩
    rintro wait ⟨b, hb, e, he, hwait⟩
    have hexpiry := hexpiries b hb e he
    by_cases hpending : nowMs < satAdd u64Max e.atMs b.windowMs
    · rw [if_pos hpending, Option.some.injEq] at hwait
      omega
    · rw [if_neg hpending] at hwait
      cases hwait

theorem windowMs_pos (hvalid : c.validate = .ok ()) {b : Budget} (hb : b ∈ c.budgets) :
    0 < b.windowMs := by
  unfold LedgerConfig.validate at hvalid
  by_cases hempty : c.budgets.isEmpty = true
  · rw [if_pos hempty] at hvalid
    cases hvalid
  rw [if_neg hempty] at hvalid
  by_cases hany : (c.budgets.any fun b => b.windowMs == 0 || b.capacity == 0) = true
  · rw [if_pos hany] at hvalid
    cases hvalid
  rw [Bool.not_eq_true, any_eq_false] at hany
  have hb' := hany b hb
  simp only [Bool.or_eq_true, beq_iff_eq, not_or] at hb'
  omega

/-- A charge that is popped has left every window. -/
theorem mem_settled_reap {s : KeyState} {o : IterOrder} {e : Usage}
    (he : e ∈ chargesAt c nowMs s) :
    e ∈ (s.reap c o nowMs).1.settled ∨ c.maxWindow ≤ nowMs - e.atMs := by
  rw [mem_chargesAt o] at he
  simp only [KeyState.reap, KeyState.popAged]
  generalize ((expiredIds o nowMs c.reservationTimeoutMs s.active).foldl
    KeyState.chargeExpired s).settled = l at he
  induction l with
  | nil => cases he
  | cons x l ih =>
    by_cases haged : c.maxWindow ≤ nowMs - x.atMs
    · rw [dropWhile_cons_of_pos (by simpa using haged)]
      rcases mem_cons.mp he with rfl | he
      · exact .inr haged
      · exact ih he
    · rw [dropWhile_cons_of_neg (by simpa using haged)]
      exact .inl he

/-- The hint of the code is the instant of the last expiry. -/
theorem add_retryAfterMs_reap (hvalid : c.validate = .ok ()) (s : KeyState) (o : IterOrder) :
    nowMs + (s.reap c o nowMs).1.retryAfterMs c nowMs = hintInstant c nowMs s := by
  apply le_antisymm
  · obtain ⟨htimeout, hcharges⟩ := hintInstant_le.mp (le_refl (hintInstant c nowMs s))
    rw [retryAfterMs_le (by omega)]
    refine ⟨htimeout, fun b hb e he => hcharges b hb e ?_⟩
    rw [mem_chargesAt o]
    exact (dropWhile_sublist _).subset he
  · have hself := (@retryAfterMs_le c nowMs (s.reap c o nowMs).1 _ (Nat.le_add_right _ _)).mp
      (le_refl (nowMs + (s.reap c o nowMs).1.retryAfterMs c nowMs))
    rw [hintInstant_le]
    refine ⟨hself.1, fun b hb e he => ?_⟩
    rcases mem_settled_reap (o := o) he with hkept | hpopped
    · exact hself.2 b hb e hkept
    · have hwindow := windowMs_le_maxWindow hb
      have hpos := windowMs_pos hvalid hb
      rw [satAdd]
      omega

end Charges

/-! ## What the hint does not wait for -/

/-- The tokens that still count at the instant of the hint: those of reservations that are open
when it is given, and those of charges dated so late that their expiry does not fit the clock. -/
def overlooked (c : LedgerConfig) (nowMs windowMs : ℕ) (s : KeyState) : ℕ :=
  weigh
    (fun e => if u64Max < e.atMs + windowMs then
      insideTokens (hintInstant c nowMs s) windowMs e else 0)
    (fun r => if nowMs - r.createdAtMs < c.reservationTimeoutMs ∨
        u64Max < r.createdAtMs + windowMs then
      openTokens c (hintInstant c nowMs s) windowMs r else 0) s

theorem countsAt_hintInstant {c : LedgerConfig} {b : Budget} (hb : b ∈ c.budgets) (nowMs : ℕ)
    (s : KeyState) :
    countsAt c (hintInstant c nowMs s) b.windowMs s = overlooked c nowMs b.windowMs s := by
  obtain ⟨htimeout, hcharges⟩ := hintInstant_le.mp (le_refl (hintInstant c nowMs s))
  have hgone : ∀ e ∈ chargesAt c nowMs s, ¬u64Max < e.atMs + b.windowMs →
      ¬hintInstant c nowMs s - e.atMs < b.windowMs := by
    intro e he hfits
    have hexpiry := hcharges b hb e he
    rw [satAdd] at hexpiry
    omega
  have hsettled : s.settled.map (insideTokens (hintInstant c nowMs s) b.windowMs) =
      s.settled.map fun e => if u64Max < e.atMs + b.windowMs then
        insideTokens (hintInstant c nowMs s) b.windowMs e else 0 := by
    apply map_congr_left
    intro e he
    by_cases hlate : u64Max < e.atMs + b.windowMs
    · rw [if_pos hlate]
    · rw [if_neg hlate, insideTokens, if_neg (hgone e (mem_append_left _ he) hlate)]
  have hactive : ∀ entry ∈ s.active.entries,
      openTokens c (hintInstant c nowMs s) b.windowMs entry.2 =
        if nowMs - entry.2.createdAtMs < c.reservationTimeoutMs ∨
            u64Max < entry.2.createdAtMs + b.windowMs then
          openTokens c (hintInstant c nowMs s) b.windowMs entry.2 else 0 := by
    intro entry hentry
    by_cases hkept : nowMs - entry.2.createdAtMs < c.reservationTimeoutMs ∨
        u64Max < entry.2.createdAtMs + b.windowMs
    · rw [if_pos hkept]
    · rw [if_neg hkept]
      have hcharge : asUsage entry.2 ∈ chargesAt c nowMs s := by
        apply mem_append_right
        refine mem_map_of_mem (mem_filter.mpr ⟨mem_map_of_mem hentry, ?_⟩)
        simp only [decide_eq_true_eq]
        omega
      have hleft := hgone _ hcharge (by simp only [asUsage]; omega)
      simp only [asUsage] at hleft
      rw [openTokens, if_neg (by omega)]
  rw [countsAt, weigh, overlooked, weigh, hsettled, sumBy, sumBy, map_congr_left hactive]

/-- Whether a decision lets a request pass, or stops it only for the number of reservations. -/
def Passes : Decision → Prop
  | .admitted _ => True
  | .denied _ reason _ => reason = .reservationCapacity

section Calls

variable {c : LedgerConfig} {L L' : Ledger} {key : String}
  {estimate nowMs : ℕ}

theorem judge_retry {s : KeyState} {r : ℕ} (h : (s.judge c nowMs estimate).exhausted = some r) :
    r = s.retryAfterMs c nowMs := by
  simp only [KeyState.judge] at h
  cases hexhausted :
      (c.budgets.foldl (Tally.add s nowMs estimate) ⟨0, c.limit, false⟩).exhausted with
  | true => simpa [hexhausted] using h.symm
  | false => simp [hexhausted] at h

theorem reserve_denied {o : IterOrder} {r remaining : ℕ}
    (h : reserve c o L key estimate nowMs =
      (L', .denied r .windowCapacity remaining)) :
    ¬InvalidKey c.bounds key estimate ∧
      L'.keys.lookup key = some ((view (policy c) L key).reap c o nowMs).1 ∧
      r = ((view (policy c) L key).reap c o nowMs).1.retryAfterMs c nowMs := by
  unfold reserve at h
  rcases reserve_cases (policy c) c.bounds o L key estimate nowMs with
    ⟨-, hcase⟩ | ⟨-, -, hcase⟩ | ⟨hvalid, L₁, -, hcase⟩
  · rw [hcase] at h
    cases h
  · rw [hcase] at h
    cases h
  rw [hcase] at h
  refine ⟨hvalid, ?_⟩
  rcases reserveLocked_cases (policy c) c.bounds o L₁ key (view (policy c) L key) estimate
      nowMs with
    ⟨retry, hretry, hlocked⟩ | ⟨-, -, hlocked⟩ | ⟨-, -, hlocked⟩
  · rw [hlocked, Prod.mk.injEq, Decision.denied.injEq] at h
    obtain ⟨rfl, rfl, -⟩ := h
    exact ⟨AList.lookup_insert _, judge_retry hretry⟩
  · rw [hlocked] at h
    cases h
  · rw [hlocked] at h
    cases h

/-- A later call on a key passes exactly when the key fits every budget then. -/
theorem passes_iff {s : KeyState} (hvalid : ¬InvalidKey c.bounds key estimate)
    (hs : L.keys.lookup key = some s) (o : IterOrder) (atMs : ℕ) :
    Passes (reserve c o L key estimate atMs).2 ↔
      ((s.reap c o atMs).1.judge c atMs estimate).exhausted = none := by
  have hentry : entry (policy c) c.bounds L key = some (L, s) := by
    rw [entry, hs]
  have hlocked : reserve c o L key estimate atMs =
      reserveLocked (policy c) c.bounds o L key s estimate atMs := by
    simp only [reserve, ReservationLedger.reserve, if_neg hvalid, hentry]
  rw [hlocked]
  rcases reserveLocked_cases (policy c) c.bounds o L key s estimate atMs with
    ⟨retry, hretry, hcase⟩ | ⟨hfree, -, hcase⟩ | ⟨hfree, -, hcase⟩
  · have hsome : ((s.reap c o atMs).1.judge c atMs estimate).exhausted = some retry := hretry
    rw [hcase, hsome]
    simp [Passes]
  · have hnone : ((s.reap c o atMs).1.judge c atMs estimate).exhausted = none := hfree
    rw [hcase, hnone]
    simp [Passes]
  · have hnone : ((s.reap c o atMs).1.judge c atMs estimate).exhausted = none := hfree
    rw [hcase, hnone]
    simp [Passes]

/-- From any state, the request passes at the instant of the hint exactly when what the hint
overlooks leaves room for it. -/
theorem passes_at_hint_iff (hconfig : c.validate = .ok ()) {o : IterOrder} {r remaining : ℕ}
    (h : reserve c o L key estimate nowMs =
      (L', .denied r .windowCapacity remaining)) (o' : IterOrder) :
    Passes (reserve c o' L' key estimate (nowMs + r)).2 ↔
      ∀ b ∈ c.budgets,
        min (overlooked c nowMs b.windowMs (view (policy c) L key) + estimate) u64Max ≤
          b.capacity := by
  obtain ⟨hvalid, hkept, rfl⟩ := reserve_denied h
  rw [passes_iff hvalid hkept, judge_fits, add_retryAfterMs_reap hconfig]
  refine forall_congr' fun b => forall_congr' fun hb => ?_
  have hle : nowMs ≤ hintInstant c nowMs (view (policy c) L key) := by
    have := (hintInstant_le.mp (le_refl (hintInstant c nowMs (view (policy c) L key)))).1
    omega
  rw [usageInWindow_eq, windowTotal_reap hb, countsAt_reap hb o hle, countsAt_hintInstant hb,
    satAdd_min_left]

end Calls

/-- In every run, a request that was denied for the windows passes at the instant of its hint
exactly when the tokens of its key that are open at the denial, and still count then, leave room
for it. -/
theorem local_retry_hint_sufficient_iff (c : LedgerConfig) (hconfig : c.validate = .ok ())
    (calls : List Call) (key : String) (estimate nowMs r remaining : ℕ) (o o' : IterOrder)
    (L' : Ledger)
    (hdenied : reserve c o
      (TimedRuns.final (step c) ReservationLedger.Ledger.new calls) key estimate nowMs =
        (L', .denied r .windowCapacity remaining)) :
    Passes (reserve c o' L' key estimate (nowMs + r)).2 ↔
      ∀ b ∈ c.budgets, min (overlooked c nowMs b.windowMs (view (policy c)
        (TimedRuns.final (step c) ReservationLedger.Ledger.new calls) key) + estimate) u64Max ≤
          b.capacity :=
  passes_at_hint_iff hconfig hdenied o'

def tenTokens (windowMs timeoutMs : ℕ) : LedgerConfig := ⟨[⟨windowMs, 10⟩], timeoutMs, 10, 10, 10⟩

def allReserved (c : LedgerConfig) : Ledger :=
  TimedRuns.final (step c) ReservationLedger.Ledger.new [.reserve .asStored "k" 10 0]

theorem local_retry_hint_short_window :
    (reserve (tenTokens 1000 5000) .asStored
        (allReserved (tenTokens 1000 5000)) "k" 1 0).2 = .denied 5000 .windowCapacity 0 ∧
      Passes (reserve (tenTokens 1000 5000) .asStored
        (reserve (tenTokens 1000 5000) .asStored
          (allReserved (tenTokens 1000 5000)) "k" 1 0).1 "k" 1 (0 + 5000)).2 := by
  have hdenied : (reserve (tenTokens 1000 5000) .asStored
      (allReserved (tenTokens 1000 5000)) "k" 1 0).2 = .denied 5000 .windowCapacity 0 := by rfl
  refine ⟨hdenied, (local_retry_hint_sufficient_iff (tenTokens 1000 5000) rfl
    [.reserve .asStored "k" 10 0] "k" 1 0 5000 0 .asStored .asStored _ (Prod.ext rfl hdenied)).mpr
    ?_⟩
  intro b hb
  obtain rfl := mem_singleton.mp hb
  decide +kernel

/-- With a window longer than the timeout the hint is too short: the reservation that held the
budget times out and stays charged for the rest of its window. -/
theorem timed_out_reservation_still_counts :
    (reserve (tenTokens 60000 1000) .asStored
        (allReserved (tenTokens 60000 1000)) "k" 1 0).2 = .denied 1000 .windowCapacity 0 ∧
      (reserve (tenTokens 60000 1000) .asStored
        (reserve (tenTokens 60000 1000) .asStored
          (allReserved (tenTokens 60000 1000)) "k" 1 0).1 "k" 1 (0 + 1000)).2 =
            .denied 59000 .windowCapacity 0 := by
  exact ⟨rfl, rfl⟩

end LocalRetryHints
