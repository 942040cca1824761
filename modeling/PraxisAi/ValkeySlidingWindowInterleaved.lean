import PraxisAi.UsageCharges

/-! # Shared sliding-window usage is conserved under interleaving

Any number of connections reserve in two steps, a read and an atomic admission, and reconcile in
two steps, a watched read and an `EXEC`, whose reply may be lost or come after the response
timeout. However the steps interleave, a counter holds what the admissions of its sub-window are
charged, as long as no counter has expired and the charges fit 64-bit counters. -/
namespace ValkeySlidingWindowInterleaved

open List Function
open ExpiringKeys SaturatingArithmetic StateBackend ValkeyCommands SubWindows IndexedSums
open ValkeySlidingWindow UsageCharges

inductive Attempt where
  | reserve (request : ReserveRequest) (reads : WindowReads)
  | reconcile (request : ReconcileRequest) (value : Option (List Char)) (seenAt : ℕ)
      (reservation : Cell (List Char))

/-- `charges` lists the admissions, `settlements` the ids of the settlements that ran. -/
structure World where
  clock : ℕ
  store : Store
  attempts : ℕ → Option Attempt
  charges : List Charge
  settlements : List ℕ

def World.initial : World := ⟨0, Store.new, fun _ => none, [], []⟩

def World.attempt (w : World) (n : ℕ) (a : Option Attempt) : World :=
  { w with attempts := update w.attempts n a }

/-- What a step lets a caller of `reconcile` see. -/
inductive Event where
  | internal
  | reconciled (reply : Except BackendError BackendSettlement)

variable (c : ValkeySlidingWindowConfig)

def World.admission (w : World) (n : ℕ) (request : ReserveRequest) : World :=
  { w.attempt n none with
    store := (admitRequest c w.clock w.store request).1
    charges := w.charges ++ [newCharge request (w.store.seq + 1)] }

def World.settlement (w : World) (n : ℕ) (request : ReconcileRequest)
    (estimate admittedAtMs actual : ℕ) : World :=
  { w.attempt n none with
    store := (settlementPipeline c w.clock w.store request admittedAtMs
      (settlementDelta estimate actual)).1
    charges := w.charges.map (settleCharge request.reservationId actual)
    settlements := w.settlements ++ [request.reservationId] }

inductive Step : World → Event → World → Prop
  | tick (w : World) (ms : ℕ) : Step w .internal { w with clock := w.clock + ms }
  /-- Other rules of the namespace draw ids and change the index they share. -/
  | elsewhere (w : World) (drawn : ℕ) (active : Option (Slot (SortedSet (String × ℕ)))) :
      Step w .internal
        { w with store := { w.store with seq := w.store.seq + drawn, active := active } }
  | readReserve (w : World) (n : ℕ) (request : ReserveRequest) (idle : w.attempts n = none)
      (typed : request.estimate ≤ u64Max ∧ request.nowMs ≤ u64Max) :
      Step w .internal
        ({ w with store := (readWindow c w.store w.clock request.key request.nowMs).1 }.attempt n
          (some (.reserve request (readWindow c w.store w.clock request.key request.nowMs).2)))
  | admission (w : World) (n : ℕ) (request : ReserveRequest) (reads : WindowReads)
      (maxUsage remaining : ℕ) (running : w.attempts n = some (.reserve request reads))
      (decided : decideReserve c reads request.estimate request.nowMs =
        .admission maxUsage remaining) : Step w .internal (w.admission c n request)
  | readReconcile (w : World) (n : ℕ) (request : ReconcileRequest) (idle : w.attempts n = none) :
      Step w .internal (w.attempt n (some (.reconcile request
        (readReservation w.store w.clock request) w.clock
        (w.store.reservation request.key request.reservationId))))
  /-- A denial, a lost connection of a reserve, or an aborted `EXEC` that is tried again. -/
  | giveUp (w : World) (n : ℕ) : Step w .internal (w.attempt n none)
  | noop (w : World) (n : ℕ) (request : ReconcileRequest) (value : Option (List Char))
      (seenAt : ℕ) (reservation : Cell (List Char))
      (running : w.attempts n = some (.reconcile request value seenAt reservation))
      (plan : planReconcile value request.actual = .noop) :
      Step w (.reconciled (.ok .noop)) (w.attempt n none)
  | failed (w : World) (n : ℕ) (request : ReconcileRequest) (value : Option (List Char))
      (seenAt : ℕ) (reservation : Cell (List Char)) (error : BackendError)
      (running : w.attempts n = some (.reconcile request value seenAt reservation))
      (plan : planReconcile value request.actual = .failed error) :
      Step w (.reconciled (.error error)) (w.attempt n none)
  /-- The last `EXEC` that the deadline allows is aborted. -/
  | contended (w : World) (n : ℕ) (request : ReconcileRequest) (value : Option (List Char))
      (seenAt : ℕ) (reservation : Cell (List Char))
      (running : w.attempts n = some (.reconcile request value seenAt reservation))
      (changed : ¬ Cell.Unchanged seenAt reservation w.clock
        (w.store.reservation request.key request.reservationId)) :
      Step w (.reconciled (.error (.unavailable "Valkey transaction contended")))
        (w.attempt n none)
  | settlement (w : World) (n : ℕ) (request : ReconcileRequest) (value : Option (List Char))
      (seenAt : ℕ) (reservation : Cell (List Char)) (estimate admittedAtMs actual : ℕ)
      (running : w.attempts n = some (.reconcile request value seenAt reservation))
      (plan : planReconcile value request.actual = .commit estimate admittedAtMs actual)
      (unchanged : Cell.Unchanged seenAt reservation w.clock
        (w.store.reservation request.key request.reservationId)) :
      Step w
        (.reconciled (settlementReply estimate actual (settlementPipeline c w.clock w.store
          request admittedAtMs (settlementDelta estimate actual)).2))
        (w.settlement c n request estimate admittedAtMs actual)

  /-- The commands of the attempt do not reach the server. -/
  | undelivered (w : World) (n : ℕ) (request : ReconcileRequest) (value : Option (List Char))
      (seenAt : ℕ) (reservation : Cell (List Char)) (text : String)
      (running : w.attempts n = some (.reconcile request value seenAt reservation)) :
      Step w (.reconciled (.error (commandError text))) (w.attempt n none)
  /-- The server runs the `EXEC`, and its reply is lost or late. -/
  | unanswered (w : World) (n : ℕ) (request : ReconcileRequest) (value : Option (List Char))
      (seenAt : ℕ) (reservation : Cell (List Char)) (estimate admittedAtMs actual : ℕ)
      (text : String)
      (running : w.attempts n = some (.reconcile request value seenAt reservation))
      (plan : planReconcile value request.actual = .commit estimate admittedAtMs actual)
      (unchanged : Cell.Unchanged seenAt reservation w.clock
        (w.store.reservation request.key request.reservationId)) :
      Step w (.reconciled (.error (commandError text)))
        (w.settlement c n request estimate admittedAtMs actual)

/-- Runs on which a condition holds of every world after a step. -/
inductive Reachable (P : World → Prop) : World → Prop
  | initial : Reachable P .initial
  | step {w w' : World} {event : Event} :
      Reachable P w → Step c w event w' → P w' → Reachable P w'

def Unexpired (w : World) : Prop :=
  ∀ key, ∀ width ∈ c.widths, ∀ i slot, w.store.usage key width.bucketMs i = some slot →
    slot.alive w.clock = true

structure Within (w : World) : Prop where
  unexpired : Unexpired c w
  fits : Fits c w.charges

/-- What an attempt knows: a request of 64-bit numbers, or what the watched key held. -/
def Faithful (w : World) : Attempt → Prop
  | .reserve request _ => request.estimate ≤ u64Max ∧ request.nowMs ≤ u64Max
  | .reconcile request value seenAt reservation =>
    seenAt ≤ w.clock ∧ reservation.Later (w.store.reservation request.key request.reservationId) ∧
      value = (visible seenAt reservation.slot).map Slot.value

structure Conserved (w : World) : Prop where
  books : Books c w.store w.charges
  faithful : ∀ n a, w.attempts n = some a → Faithful w a
  settled : ∀ id ∈ w.settlements, ∃ e ∈ w.charges, e.id = id ∧ e.settled ≠ none
  once : w.settlements.Nodup

variable {c} {w w' : World} {event : Event}

theorem Unexpired.visible (h : Unexpired c w) (key : String) (admittedAtMs : ℕ) :
    CountersVisible c w.clock w.store key admittedAtMs := by
  intro width hwidth
  rcases hslot : w.store.usage key width.bucketMs (bucketIndex admittedAtMs width.bucketMs) with
    _ | slot
  · rfl
  · exact visible_of_alive (h key width hwidth _ slot hslot)

theorem Faithful.onward {a : Attempt} (h : Faithful w a) (hclock : w.clock ≤ w'.clock)
    (hlater : ∀ key id (cell : Cell (List Char)), cell.Later (w.store.reservation key id) →
      cell.Later (w'.store.reservation key id)) : Faithful w' a := by
  cases a with
  | reserve request reads => exact h
  | reconcile request value seenAt reservation =>
    exact ⟨h.1.trans hclock, hlater _ _ _ h.2.1, h.2.2⟩

theorem faithful_attempt (h : ∀ m a, w.attempts m = some a → Faithful w a) {n : ℕ}
    {b : Option Attempt} (hattempts : w'.attempts = update w.attempts n b)
    (hb : ∀ a, b = some a → Faithful w' a) (hclock : w.clock ≤ w'.clock)
    (hlater : ∀ key id (cell : Cell (List Char)), cell.Later (w.store.reservation key id) →
      cell.Later (w'.store.reservation key id)) :
    ∀ m a, w'.attempts m = some a → Faithful w' a := by
  intro m a ha
  rw [hattempts] at ha
  by_cases hm : m = n
  · subst hm
    rw [update_self] at ha
    exact hb a ha
  · rw [update_of_ne hm] at ha
    exact (h m a ha).onward hclock hlater

theorem admitRequest_later {t : ℕ} {s : Store} (request : ReserveRequest) {key : String} {id : ℕ}
    {cell : Cell (List Char)} (h : cell.Later (s.reservation key id)) :
    cell.Later ((admitRequest c t s request).1.reservation key id) := by
  simp only [admitRequest, recordActiveReservation, retainKey, addUsageDelta_reservation]
  exact h.update_update _ _ _

theorem settlementPipeline_later {t : ℕ} {s : Store} (request : ReconcileRequest)
    (admittedAtMs : ℕ) (delta : ℤ) {key : String} {id : ℕ} {cell : Cell (List Char)}
    (h : cell.Later (s.reservation key id)) :
    cell.Later ((settlementPipeline c t s request admittedAtMs delta).1.reservation key id) := by
  simp only [settlementPipeline, retainKey, addUsageDelta_reservation]
  exact h.update_update _ _ _

theorem Conserved.of_quiet (h : Conserved c w) (husage : w'.store.usage = w.store.usage)
    (hres : w'.store.reservation = w.store.reservation) (hseq : w.store.seq ≤ w'.store.seq)
    (hcharges : w'.charges = w.charges) (hsettlements : w'.settlements = w.settlements)
    (hfaithful : ∀ n a, w'.attempts n = some a → Faithful w' a) : Conserved c w' := by
  refine ⟨?_, hfaithful, ?_, ?_⟩
  · rw [hcharges]
    exact h.books.congr husage hres hseq
  · rw [hcharges, hsettlements]
    exact h.settled
  · rw [hsettlements]
    exact h.once

theorem Conserved.drop (h : Conserved c w) (n : ℕ) : Conserved c (w.attempt n none) :=
  h.of_quiet rfl rfl le_rfl rfl rfl
    (faithful_attempt h.faithful rfl (fun _ ha => nomatch ha) le_rfl fun _ _ _ hl => hl)

/-- What an `EXEC` that is not aborted settles. -/
theorem Conserved.planned (h : Conserved c w) {n : ℕ} {request : ReconcileRequest}
    {value : Option (List Char)} {seenAt : ℕ} {reservation : Cell (List Char)}
    {estimate admittedAtMs actual : ℕ}
    (running : w.attempts n = some (.reconcile request value seenAt reservation))
    (plan : planReconcile value request.actual = .commit estimate admittedAtMs actual)
    (unchanged : Cell.Unchanged seenAt reservation w.clock
      (w.store.reservation request.key request.reservationId)) :
    ∃ e ∈ w.charges, e.key = request.key ∧ e.id = request.reservationId ∧ e.settled = none ∧
      e.estimate = estimate ∧ e.admittedAtMs = admittedAtMs := by
  obtain ⟨hseen, hlater, rfl⟩ := h.faithful n _ running
  rw [← unchanged.visible_eq hlater hseen] at plan
  rcases hslot : visible w.clock (w.store.reservation request.key request.reservationId).slot with
    _ | slot
  · rw [hslot] at plan
    cases plan
  · rw [hslot] at plan
    exact h.books.planned (visible_eq_some.mp hslot).1 plan

theorem Conserved.admission (h : Conserved c w) (hunexpired : Unexpired c w) {n : ℕ}
    {request : ReserveRequest} {reads : WindowReads}
    (running : w.attempts n = some (.reserve request reads))
    (hfits : Fits c (w.admission c n request).charges) : Conserved c (w.admission c n request) := by
  obtain ⟨hestimate, hnow⟩ := h.faithful n _ running
  refine ⟨?_, ?_, ?_, h.once⟩
  · exact (h.books.admitRequest request hestimate hnow (hunexpired.visible _ _) hfits).1
  · exact faithful_attempt h.faithful rfl (fun _ ha => nomatch ha) le_rfl
      fun _ _ _ hl => admitRequest_later request hl
  · intro id hid
    obtain ⟨e, he, hspec⟩ := h.settled id hid
    exact ⟨e, mem_append_left _ he, hspec⟩

theorem Conserved.settlement (h : Conserved c w) (hwithin : Within c w) {n : ℕ}
    {request : ReconcileRequest} {value : Option (List Char)} {seenAt : ℕ}
    {reservation : Cell (List Char)} {estimate admittedAtMs actual : ℕ}
    (running : w.attempts n = some (.reconcile request value seenAt reservation))
    (plan : planReconcile value request.actual = .commit estimate admittedAtMs actual)
    (unchanged : Cell.Unchanged seenAt reservation w.clock
      (w.store.reservation request.key request.reservationId))
    (hfits : Fits c (w.settlement c n request estimate admittedAtMs actual).charges) :
    Conserved c (w.settlement c n request estimate admittedAtMs actual) ∧
      (settlementPipeline c w.clock w.store request admittedAtMs
        (settlementDelta estimate actual)).2 = true := by
  obtain ⟨e₀, he₀, hkey, hid, hnone, rfl, rfl⟩ := h.planned running plan unchanged
  obtain ⟨hbooks, hok⟩ := h.books.settlementPipeline he₀ hkey hid hnone
    (hwithin.unexpired.visible _ _) hwithin.fits hfits
  refine ⟨⟨hbooks, ?_, ?_, ?_⟩, hok⟩
  · exact faithful_attempt h.faithful rfl (fun _ ha => nomatch ha) le_rfl
      fun _ _ _ hl => settlementPipeline_later request _ _ hl
  · intro id hmem
    rcases mem_append.mp hmem with hmem | hmem
    · obtain ⟨e, he, hi, hsettled⟩ := h.settled id hmem
      refine ⟨_, mem_map_of_mem he, by rw [settleCharge_id, hi], ?_⟩
      simp only [settleCharge]
      split
      · exact Option.some_ne_none _
      · exact hsettled
    · obtain rfl := mem_singleton.mp hmem
      refine ⟨_, mem_map_of_mem he₀, by rw [settleCharge_id, hid], ?_⟩
      simp [settleCharge, hid]
  · refine nodup_append.mpr ⟨h.once, nodup_singleton _, ?_⟩
    rintro id hmem _ hthis rfl
    obtain rfl := mem_singleton.mp hthis
    obtain ⟨e, he, hi, hsettled⟩ := h.settled _ hmem
    exact hsettled (eq_of_id_eq h.books.ids he he₀ (hi.trans hid.symm) ▸ hnone)

theorem Conserved.step (h : Conserved c w) (hwithin : Within c w) (hstep : Step c w event w')
    (hfits : Fits c w'.charges) : Conserved c w' := by
  cases hstep with
  | tick ms =>
    exact h.of_quiet rfl rfl le_rfl rfl rfl fun n a ha =>
      (h.faithful n a ha).onward (Nat.le_add_right _ _) fun _ _ _ hl => hl
  | elsewhere drawn active =>
    exact h.of_quiet rfl rfl (Nat.le_add_right _ _) rfl rfl fun n a ha =>
      (h.faithful n a ha).onward le_rfl fun _ _ _ hl => hl
  | readReserve n request idle typed =>
    refine h.of_quiet rfl rfl le_rfl rfl rfl
      (faithful_attempt h.faithful rfl ?_ le_rfl fun _ _ _ hl => hl)
    rintro a ha
    obtain rfl := Option.some.inj ha
    exact typed
  | admission n request reads maxUsage remaining running decided =>
    exact h.admission hwithin.unexpired running hfits
  | readReconcile n request idle =>
    refine h.of_quiet rfl rfl le_rfl rfl rfl
      (faithful_attempt h.faithful rfl ?_ le_rfl fun _ _ _ hl => hl)
    rintro a ha
    obtain rfl := Option.some.inj ha
    exact ⟨le_rfl, .refl _, rfl⟩
  | giveUp n => exact h.drop n
  | noop n request value seenAt reservation running plan => exact h.drop n
  | failed n request value seenAt reservation error running plan => exact h.drop n
  | contended n request value seenAt reservation running changed => exact h.drop n
  | undelivered n request value seenAt reservation text running => exact h.drop n
  | settlement n request value seenAt reservation estimate admittedAtMs actual running plan
      unchanged => exact (h.settlement hwithin running plan unchanged hfits).1
  | unanswered n request value seenAt reservation estimate admittedAtMs actual text running plan
      unchanged => exact (h.settlement hwithin running plan unchanged hfits).1

theorem conserved_initial : Conserved c World.initial := by
  constructor
  · exact books_new c
  · intro n a ha
    cases ha
  · intro id hid
    cases hid
  · exact nodup_nil

theorem within_initial : Within c World.initial := by
  constructor
  · intro key width _ i slot h
    cases h
  · intro key width _ i
    simp [World.initial, charged]

theorem reachable_conserved (h : Reachable c (Within c) w) : Conserved c w ∧ Within c w := by
  induction h with
  | initial => exact ⟨conserved_initial, within_initial⟩
  | step _ hstep hwithin ih => exact ⟨ih.1.step ih.2 hstep hwithin.fits, hwithin⟩

/-- A step whose reply applies no settlement leaves the counters, or the `EXEC` of an id that had
not been settled was run and the call does not know it. -/
theorem unapplied_usage (h : Conserved c w) (hwithin : Within c w)
    {reply : Except BackendError BackendSettlement} (hstep : Step c w (.reconciled reply) w')
    (hfits : Fits c w'.charges)
    (hreply : ∀ actual refund overage, reply ≠ .ok (.applied actual refund overage)) :
    w'.store.usage = w.store.usage ∨ ∃ text id, reply = .error (commandError text) ∧
      id ∉ w.settlements ∧ w'.settlements = w.settlements ++ [id] := by
  cases hstep with
  | noop | failed | contended | undelivered => exact .inl rfl
  | settlement n request value seenAt reservation estimate admittedAtMs actual running plan
      unchanged =>
    have hok := (h.settlement hwithin running plan unchanged hfits).2
    rw [hok] at hreply
    exact absurd rfl (hreply _ _ _)
  | unanswered n request value seenAt reservation estimate admittedAtMs actual text running plan
      unchanged =>
    have honce := (h.settlement hwithin running plan unchanged hfits).1.once
    refine .inr ⟨text, request.reservationId, rfl, fun hmem => ?_, rfl⟩
    exact (nodup_append.mp honce).2.2 _ hmem _ (mem_singleton_self _) rfl

section Expiry

theorem addUsage_alive {t ttl : ℕ} {delta : ℤ} {slot : Option (Slot ℤ)} {s : Slot ℤ}
    (httl : 0 < ttl) (h : addUsage t ttl delta slot = some s) : s.alive t = true := by
  obtain ⟨s', -, rfl⟩ := Option.map_eq_some_iff.mp h
  rw [extendSharedTtl, extend_eq, alive_iff]
  intro e he
  obtain rfl := Option.mem_some_iff.mp he
  omega

theorem addUsageDelta_alive {t admittedAtMs : ℕ} {id : String} {delta : ℤ}
    {widths : List CounterWidth} {s : Store} (httl : ∀ width ∈ widths, 0 < width.ttlMs)
    {k : String} {w i : ℕ} {slot : Slot ℤ}
    (h : ∀ slot, s.usage k w i = some slot → slot.alive t = true)
    (hslot : (addUsageDelta t id admittedAtMs delta widths s).1.usage k w i = some slot) :
    slot.alive t = true := by
  induction widths generalizing s with
  | nil => exact h slot hslot
  | cons width widths ih =>
    refine ih (fun width' hwidth' => httl width' (mem_cons_of_mem _ hwidth')) ?_ hslot
    intro s' hs'
    simp only [setUsage] at hs'
    split at hs'
    · exact addUsage_alive (httl width mem_cons_self) hs'
    · exact h s' hs'

theorem ttlMs_pos {width : CounterWidth} (hwidth : width ∈ c.widths) : 0 < width.ttlMs := by
  obtain ⟨b, -, -, httl⟩ := (counterWidths_spec _ _).lasting width hwidth
  have hpos := bucketMs_pos b.windowMs
  simp only [counterTtlMs, satAdd, u64Max] at httl
  omega

/-- Only time makes a counter expire. -/
theorem Unexpired.step (h : Unexpired c w) (hstep : Step c w event w')
    (hclock : w'.clock = w.clock) : Unexpired c w' := by
  intro key width hwidth i slot hslot
  rw [hclock]
  cases hstep with
  | tick ms => exact h key width hwidth i slot hslot
  | elsewhere drawn active => exact h key width hwidth i slot hslot
  | readReserve n request idle typed => exact h key width hwidth i slot hslot
  | admission n request reads maxUsage remaining running decided =>
    exact addUsageDelta_alive (s := { w.store with seq := w.store.seq + 1 })
      (fun _ => ttlMs_pos) (h key width hwidth i) hslot
  | readReconcile n request idle => exact h key width hwidth i slot hslot
  | giveUp n => exact h key width hwidth i slot hslot
  | noop n request value seenAt reservation running plan => exact h key width hwidth i slot hslot
  | failed n request value seenAt reservation error running plan =>
    exact h key width hwidth i slot hslot
  | contended n request value seenAt reservation running changed =>
    exact h key width hwidth i slot hslot
  | undelivered n request value seenAt reservation text running =>
    exact h key width hwidth i slot hslot
  | settlement | unanswered =>
    exact addUsageDelta_alive (fun _ => ttlMs_pos) (h key width hwidth i) hslot

theorem Reachable.instant (h : Reachable c (Within c) w) (hstep : Step c w event w')
    (hclock : w'.clock = w.clock)
    (hfits : total Charge.amount (fun _ => true) w'.charges ≤ i64Max) :
    Reachable c (Within c) w' :=
  h.step hstep ⟨(reachable_conserved h).2.unexpired.step hstep hclock, fits_of_total hfits⟩

end Expiry

/-- In every interleaving, before a counter expires and while the charges fit 64-bit counters:
each counter is the sum of the charges of its sub-window, no reservation is settled twice, and a
reconcile that does nothing or fails changes no counter, unless it failed for want of an answer to
an `EXEC` that settled a reservation for the first time. -/
theorem interleaved_usage_conserved (c : ValkeySlidingWindowConfig) (w : World)
    (reachable : Reachable c (Within c) w) :
    (∀ key, ∀ width ∈ c.widths, ∀ i,
      counterValue (w.store.usage key width.bucketMs i) =
        charged key width.bucketMs i w.charges) ∧
    w.settlements.Nodup ∧
    ∀ reply w', Step c w (.reconciled reply) w' → Fits c w'.charges →
      (reply = .ok .noop ∨ ∃ error, reply = .error error) →
        w'.store.usage = w.store.usage ∨ ∃ text id, reply = .error (commandError text) ∧
          id ∉ w.settlements ∧ w'.settlements = w.settlements ++ [id] := by
  obtain ⟨hconserved, hwithin⟩ := reachable_conserved reachable
  refine ⟨hconserved.books.balanced, hconserved.once, ?_⟩
  intro reply w' hstep hfits hreply
  refine unapplied_usage hconserved hwithin hstep hfits ?_
  rintro actual refund overage rfl
  rcases hreply with h | ⟨error, h⟩ <;> cases h

/-- Two connections have read one reservation of 30 tokens. -/
def twoReaders : World :=
  let c : ValkeySlidingWindowConfig := ⟨[⟨60000, 100⟩], 30000, 4, 4⟩
  let w := World.admission c ({ World.initial with
    store := (readWindow c Store.new 0 "k" 5).1 }.attempt 0
      (some (.reserve ⟨"k", 30, 5⟩ (readWindow c Store.new 0 "k" 5).2))) 0 ⟨"k", 30, 5⟩
  let read (actual nowMs : ℕ) : Attempt := .reconcile ⟨"k", 1, some actual, nowMs⟩
    (readReservation w.store w.clock ⟨"k", 1, some actual, nowMs⟩) w.clock
    (w.store.reservation "k" 1)
  (w.attempt 0 (some (read 10 7))).attempt 1 (some (read 20 8))

theorem reachable_twoReaders :
    Reachable ⟨[⟨60000, 100⟩], 30000, 4, 4⟩ (Within ⟨[⟨60000, 100⟩], 30000, 4, 4⟩) twoReaders := by
  have h₁ := Reachable.instant (c := ⟨[⟨60000, 100⟩], 30000, 4, 4⟩) .initial
    (.readReserve .initial 0 ⟨"k", 30, 5⟩ rfl ⟨by decide, by decide⟩) rfl (by decide)
  have h₂ := h₁.instant (.admission _ 0 ⟨"k", 30, 5⟩ _ 30 70 rfl rfl) rfl (by decide)
  have h₃ := h₂.instant (.readReconcile _ 0 ⟨"k", 1, some 10, 7⟩ rfl) rfl (by decide)
  exact h₃.instant (.readReconcile _ 1 ⟨"k", 1, some 20, 8⟩ rfl) rfl (by decide)

/-- The first settles the reservation and loses the reply, and the second is about to find it
changed. -/
theorem interleaved_usage_conserved_racing_settlements :
    let c : ValkeySlidingWindowConfig := ⟨[⟨60000, 100⟩], 30000, 4, 4⟩
    ∃ w, Step c twoReaders (.reconciled (.error (commandError "timed out"))) w ∧
      w.charges = [⟨"k", 1, 5, 30, some 10⟩] ∧ w.settlements = [1] ∧ w.settlements.Nodup ∧
      counterValue (w.store.usage "k" 1000 0) = charged "k" 1000 0 w.charges ∧
      (∃ request value seenAt reservation,
        w.attempts 1 = some (.reconcile request value seenAt reservation)) := by
  intro c
  have hstep := Step.unanswered (c := c) twoReaders 0 ⟨"k", 1, some 10, 7⟩ _ _ _ 30 5 10 "timed out"
    rfl rfl ⟨rfl, fun _ => rfl⟩
  have h := reachable_twoReaders.instant hstep rfl (by decide)
  obtain ⟨hcounter, honce, -⟩ := interleaved_usage_conserved _ _ h
  exact ⟨_, hstep, by decide, by decide, honce, hcounter "k" ⟨1000, 91000⟩ (by decide) 0,
    _, _, _, _, rfl⟩

/-- An estimate that no signed counter holds is counted one token short, and a reconcile whose reply
is lost fails and has changed a counter. -/
theorem large_or_unanswered_not_conserved :
    (let c : ValkeySlidingWindowConfig := ⟨[⟨60000, u64Max⟩], 30000, 4, 4⟩
      ∃ w, Reachable c (Unexpired c) w ∧
        counterValue (w.store.usage "k" 1000 0) < charged "k" 1000 0 w.charges) ∧
    let c : ValkeySlidingWindowConfig := ⟨[⟨60000, 100⟩], 30000, 4, 4⟩
    ∃ w w', Reachable c (Within c) w ∧
      Step c w (.reconciled (.error (commandError "timed out"))) w' ∧
      counterValue (w.store.usage "k" 1000 0) = 30 ∧
      counterValue (w'.store.usage "k" 1000 0) = 10 := by
  constructor
  · intro c
    let request : ReserveRequest := ⟨"k", 2 ^ 63, 0⟩
    let w₁ := { World.initial with store := (readWindow c Store.new 0 "k" 0).1 }.attempt 0
      (some (.reserve request (readWindow c Store.new 0 "k" 0).2))
    have hread : Step c .initial .internal w₁ :=
      .readReserve _ 0 request rfl ⟨by decide, by decide⟩
    have hunexpired : Unexpired c w₁ := within_initial.unexpired.step hread rfl
    have hadmission : Step c w₁ .internal (w₁.admission c 0 request) :=
      .admission w₁ 0 request _ (2 ^ 63) (2 ^ 63 - 1) rfl (by decide +kernel)
    exact ⟨_, (Reachable.initial.step hread hunexpired).step hadmission
      (hunexpired.step hadmission rfl), by decide +kernel⟩
  · exact ⟨twoReaders, _, reachable_twoReaders, .unanswered twoReaders 0 ⟨"k", 1, some 10, 7⟩ _ _ _
      30 5 10 "timed out" rfl rfl ⟨rfl, fun _ => rfl⟩, by decide, by decide⟩

end ValkeySlidingWindowInterleaved
