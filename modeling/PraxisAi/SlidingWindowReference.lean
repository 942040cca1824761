import PraxisAi.SlidingWindowLedger
import PraxisAi.LedgerSimulation

/-! # The sliding window against a ledger that forgets nothing

`reap` pops settled entries that have left the longest window, but only from the front of
a queue that is not sorted by time, and `cleanup` drops empty keys. The reference keeps
every settled entry and every key, and answers every call alike. -/
namespace SlidingWindowReference

open List
open KeyedMaps ReservationLedger SaturatingArithmetic SlidingWindowLedger LedgerSimulation

/-- `reap` without the popping. -/
def reapKeeping (c : LedgerConfig) (order : IterOrder) (nowMs : ℕ) (s : KeyState) :
    KeyState × List ℕ :=
  let expired := expiredIds order nowMs c.reservationTimeoutMs s.active
  (expired.foldl KeyState.chargeExpired s, expired)

def referencePolicy (c : LedgerConfig) : KeyPolicy KeyState where
  fresh := KeyState.default
  active := KeyState.active
  touch := reapKeeping c
  judge := KeyState.judge c
  hold := KeyState.hold
  release := KeyState.release
  settle order nowMs r actual s :=
    reapKeeping c order nowMs { s with settled := s.settled ++ [⟨r.createdAtMs, actual⟩] }
  isEmpty _ := false
  active_fresh := active_default
  active_touch _ _ _ := foldl_chargeExpired_active _ _
  touch_expired o t s := expiredIds_active o t _ s.active
  active_hold := active_hold
  active_release := active_release
  active_settle _ _ _ _ _ := foldl_chargeExpired_active _ _
  settle_expired o t _ _ s := expiredIds_active o t _ s.active
  active_of_isEmpty _ h := nomatch h

/-- The reference ledger with room for `maxKeys` keys. -/
def referenceStep (c : LedgerConfig) (maxKeys : ℕ) : Ledger → Call → Ledger × Reply :=
  ReservationLedger.step (referencePolicy c) { c.bounds with maxKeys := maxKeys }

def liveEntries (c : LedgerConfig) (nowMs : ℕ) (settled : List Usage) : List Usage :=
  settled.filter fun e => nowMs - e.atMs < c.maxWindow

structure SameLive (c : LedgerConfig) (nowMs : ℕ) (s v : KeyState) : Prop where
  active : s.active = v.active
  settled : liveEntries c nowMs s.settled = liveEntries c nowMs v.settled

theorem windowMs_le_maxWindow {c : LedgerConfig} {b : Budget} (hb : b ∈ c.budgets) :
    b.windowMs ≤ c.maxWindow := by
  unfold LedgerConfig.maxWindow
  have hmem : b.windowMs ∈ c.budgets.map (·.windowMs) := mem_map_of_mem hb
  rcases hmax : (c.budgets.map (·.windowMs)).max? with _ | m
  · rw [max?_eq_none_iff] at hmax
    rw [hmax] at hmem
    cases hmem
  · simpa [hmax] using (max?_eq_some_iff.mp hmax).2 _ hmem

theorem live_later (c : LedgerConfig) {t u : ℕ} (h : t ≤ u) (l : List Usage) :
    liveEntries c u (liveEntries c t l) = liveEntries c u l := by
  unfold liveEntries
  rw [filter_filter]
  apply filter_congr
  intro e _
  rw [Bool.eq_iff_iff]
  simp only [Bool.and_eq_true, decide_eq_true_eq]
  omega

theorem filter_live {c : LedgerConfig} {b : Budget} (hb : b ∈ c.budgets) (t : ℕ)
    (l : List Usage) :
    ((liveEntries c t l).filter fun e => t - e.atMs < b.windowMs) =
      l.filter fun e => t - e.atMs < b.windowMs := by
  have hw := windowMs_le_maxWindow hb
  unfold liveEntries
  rw [filter_filter]
  apply filter_congr
  intro e _
  rw [Bool.eq_iff_iff]
  simp only [Bool.and_eq_true, decide_eq_true_eq]
  omega

theorem live_popped (c : LedgerConfig) (t : ℕ) (l : List Usage) :
    liveEntries c t (l.dropWhile fun e => c.maxWindow ≤ t - e.atMs) = liveEntries c t l := by
  induction l with
  | nil => rfl
  | cons e l ih =>
    by_cases h : c.maxWindow ≤ t - e.atMs
    · have hold : ¬ t - e.atMs < c.maxWindow := by omega
      simp only [dropWhile_cons, h, decide_true, if_true, ih]
      simp [liveEntries, hold]
    · simp [h]

theorem SameLive.usage {c : LedgerConfig} {t : ℕ} {s v : KeyState} (h : SameLive c t s v)
    {b : Budget} (hb : b ∈ c.budgets) :
    s.usageInWindow t b.windowMs = v.usageInWindow t b.windowMs := by
  unfold KeyState.usageInWindow
  rw [← filter_live hb t s.settled, ← filter_live hb t v.settled, h.settled, h.active]

theorem waits_live {c : LedgerConfig} {b : Budget} (hb : b ∈ c.budgets)
    (hpos : 0 < c.maxWindow) (t : ℕ) (s : KeyState) :
    s.waits t b = KeyState.waits ⟨liveEntries c t s.settled, s.active⟩ t b := by
  have hw := windowMs_le_maxWindow hb
  unfold KeyState.waits liveEntries
  rw [filterMap_filter]
  apply filterMap_congr
  intro e _
  by_cases h : t - e.atMs < c.maxWindow
  · simp [h]
  · have hexpired : ¬ t < satAdd u64Max e.atMs b.windowMs := by
      unfold satAdd
      omega
    simp [h, hexpired]

theorem SameLive.retryAfterMs {c : LedgerConfig} (hpos : 0 < c.maxWindow) {t : ℕ}
    {s v : KeyState} (h : SameLive c t s v) : s.retryAfterMs c t = v.retryAfterMs c t := by
  have hwaits : c.budgets.flatMap (s.waits t) = c.budgets.flatMap (v.waits t) := by
    apply flatMap_congr
    intro b hb
    rw [waits_live hb hpos t s, waits_live hb hpos t v, h.settled, h.active]
  unfold KeyState.retryAfterMs
  rw [hwaits]

theorem SameLive.judge {c : LedgerConfig} (hpos : 0 < c.maxWindow) {t : ℕ} {s v : KeyState}
    (h : SameLive c t s v) (estimate : ℕ) : s.judge c t estimate = v.judge c t estimate := by
  have htally : ∀ y, c.budgets.foldl (Tally.add s t estimate) y =
      c.budgets.foldl (Tally.add v t estimate) y := by
    intro y
    apply foldl_ext
    intro y b hb
    simp only [Tally.add, h.usage hb]
  simp only [KeyState.judge, htally, h.retryAfterMs hpos]

theorem SameLive.append {c : LedgerConfig} {t : ℕ} {s v : KeyState} (h : SameLive c t s v)
    (e : Usage) (active : ActiveMap) :
    SameLive c t ⟨s.settled ++ [e], active⟩ ⟨v.settled ++ [e], active⟩ := by
  refine ⟨rfl, ?_⟩
  have := h.settled
  simp only [liveEntries, filter_append] at *
  rw [this]

theorem SameLive.chargeExpired {c : LedgerConfig} {t : ℕ} {s v : KeyState}
    (h : SameLive c t s v) (ids : List ℕ) :
    SameLive c t (ids.foldl KeyState.chargeExpired s) (ids.foldl KeyState.chargeExpired v) := by
  induction ids generalizing s v with
  | nil => exact h
  | cons id ids ih =>
    apply ih
    unfold KeyState.chargeExpired
    rw [h.active]
    rcases v.active.lookup id with _ | r
    · exact h
    · exact h.append _ _

theorem SameLive.reap {c : LedgerConfig} {t : ℕ} {s v : KeyState} (h : SameLive c t s v)
    (o : IterOrder) :
    SameLive c t (s.reap c o t).1 (reapKeeping c o t v).1 ∧
      (s.reap c o t).2 = (reapKeeping c o t v).2 := by
  simp only [KeyState.reap, reapKeeping, h.active, and_true]
  have hcharged := h.chargeExpired (expiredIds o t c.reservationTimeoutMs v.active)
  refine ⟨hcharged.active, ?_⟩
  simp only [KeyState.popAged, live_popped]
  exact hcharged.settled

theorem expiredIds_empty (o : IterOrder) (t timeout : ℕ) : expiredIds o t timeout ∅ = [] :=
  (o.perm _).eq_nil

theorem reap_default (c : LedgerConfig) (o : IterOrder) (t : ℕ) :
    (KeyState.default.reap c o t).1 = KeyState.default := by
  simp [KeyState.reap, KeyState.default, expiredIds_empty, KeyState.popAged]

theorem reapKeeping_default (c : LedgerConfig) (o : IterOrder) (t : ℕ) :
    (reapKeeping c o t KeyState.default).1 = KeyState.default := by
  simp [reapKeeping, KeyState.default, expiredIds_empty]

theorem eq_default_of_isEmpty {s : KeyState} (h : s.isEmpty = true) : s = KeyState.default := by
  have hactive := active_of_isEmpty s h
  simp only [KeyState.isEmpty, Bool.and_eq_true, List.isEmpty_iff] at h
  cases s
  simp only [KeyState.default, KeyState.mk.injEq]
  exact ⟨h.2, hactive⟩

theorem sameLive_simulation {c : LedgerConfig} (hpos : 0 < c.maxWindow) :
    KeySimulation (policy c) (referencePolicy c) (SameLive c) where
  fresh _ := ⟨rfl, rfl⟩
  later hle h := ⟨h.active, by rw [← live_later c hle, h.settled, live_later c hle]⟩
  active h := h.active
  touch o h := h.reap o
  judge estimate h := h.judge hpos estimate
  hold id r h := by
    refine ⟨?_, h.settled⟩
    simp only [policy, referencePolicy, KeyState.hold, h.active]
  settle := by
    intro t s v o id r actual h
    have happ := h.append ⟨r.createdAtMs, actual⟩ (v.active.erase id)
    simpa only [policy, referencePolicy, KeyState.settle, KeyState.release, h.active]
      using happ.reap o
  evict h he := by
    rw [eq_default_of_isEmpty he] at h
    exact h
  evict' _ he := nomatch he
  absent o h := by
    simpa only [policy, reap_default] using h
  absent' o h := by
    simpa only [referencePolicy, reapKeeping_default] using h

theorem maxWindow_pos {c : LedgerConfig} (h : c.validate = .ok ()) : 0 < c.maxWindow := by
  unfold LedgerConfig.validate at h
  split at h
  · cases h
  · next hne =>
    split at h
    · cases h
    · next hpos =>
      rcases hb : c.budgets with _ | ⟨b, bs⟩
      · simp [hb] at hne
      · have hmem : b ∈ c.budgets := by simp [hb]
        have hle := windowMs_le_maxWindow hmem
        simp only [any_eq_true, Bool.or_eq_true, beq_iff_eq, not_exists, not_and] at hpos
        have := hpos b hmem
        omega

/-- Popping aged entries and evicting empty keys is invisible: as long as the ledger does not
run out of keys, a reference with room for all its keys returns the same decisions and
settlements. -/
theorem pruning_invisible (c : LedgerConfig) (valid : c.validate = .ok ()) (calls : List Call)
    (ordered : TimedRuns.Ordered Call.nowMs 0 calls)
    (keysFit : ∀ r ∈ TimedRuns.outputs (step c) Ledger.new calls, ¬ r.deniedFor .keyCapacity)
    (maxKeys : ℕ)
    (room : calls.length ≤ maxKeys ∨
      ∀ r ∈ TimedRuns.outputs (referenceStep c maxKeys) Ledger.new calls,
        ¬ r.deniedFor .keyCapacity) :
    TimedRuns.outputs (step c) Ledger.new calls =
      TimedRuns.outputs (referenceStep c maxKeys) Ledger.new calls := by
  have hpos := maxWindow_pos valid
  refine (sameLive_simulation hpos).run ordered keysFit (room.elim (fun hroom => ?_) id)
  exact not_denied_of_few_calls (by simpa [Ledger.new] using hroom)

theorem pruning_invisible_evicted_key :
    let c : LedgerConfig := ⟨[⟨100, 80⟩, ⟨1000, 90⟩], 50, 1, 8, 4⟩
    let calls : List Call := [.reserve .asStored "k" 60 0, .reconcile .asStored 1 (some 40) 10,
      .cleanup 1000 [(.asStored, "k")], .reserve .asStored "j" 80 1000]
    TimedRuns.outputs (step c) Ledger.new calls =
        TimedRuns.outputs (referenceStep c 4) Ledger.new calls ∧
      (TimedRuns.final (step c) Ledger.new calls).keys.keys = ["j"] ∧
      (TimedRuns.final (referenceStep c 4) Ledger.new calls).keys.keys = ["j", "k"] :=
  ⟨pruning_invisible _ rfl _ (by decide) (by decide) 4 (.inl (by decide)), rfl, rfl⟩

end SlidingWindowReference
