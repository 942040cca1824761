import PraxisAi.ValkeySlidingWindow
import PraxisAi.IndexedSums

/-! # What the shared counters stand for

A ghost list records every admission with what it is charged: the estimate until it is settled,
then the actual usage. The counter of a sub-window holds the charges of the admissions in it. -/
namespace UsageCharges

open List
open ExpiringKeys SaturatingArithmetic StateBackend ValkeyCommands SubWindows IndexedSums
open ValkeySlidingWindow

structure Charge where
  key : String
  id : ℕ
  admittedAtMs : ℕ
  estimate : ℕ
  settled : Option ℕ
  deriving DecidableEq

def Charge.amount (e : Charge) : ℕ := e.settled.getD e.estimate

def Charge.inside (key : String) (width index : ℕ) (e : Charge) : Bool :=
  e.key = key ∧ bucketIndex e.admittedAtMs width = index

def charged (key : String) (width index : ℕ) (charges : List Charge) : ℕ :=
  total Charge.amount (Charge.inside key width index) charges

def settleCharge (id actual : ℕ) (e : Charge) : Charge :=
  if e.id = id then { e with settled := some actual } else e

def newCharge (request : ReserveRequest) (id : ℕ) : Charge :=
  ⟨request.key, id, request.nowMs, request.estimate, none⟩

/-- Counters are signed 64-bit integers. -/
def Fits (c : ValkeySlidingWindowConfig) (charges : List Charge) : Prop :=
  ∀ key, ∀ width ∈ c.widths, ∀ i, charged key width.bucketMs i charges ≤ i64Max

theorem fits_of_total {c : ValkeySlidingWindowConfig} {charges : List Charge}
    (h : total Charge.amount (fun _ => true) charges ≤ i64Max) : Fits c charges :=
  fun _ _ _ _ => (total_mono fun _ _ _ => rfl).trans h

def counterValue (slot : Option (Slot ℤ)) : ℤ := (slot.map Slot.value).getD 0

section Lists

variable {key : String} {width index id actual : ℕ} {charges : List Charge} {e e₀ : Charge}

@[simp] theorem settleCharge_key : (settleCharge id actual e).key = e.key := by
  simp only [settleCharge]
  split <;> rfl

@[simp] theorem settleCharge_id : (settleCharge id actual e).id = e.id := by
  simp only [settleCharge]
  split <;> rfl

@[simp] theorem settleCharge_admittedAtMs :
    (settleCharge id actual e).admittedAtMs = e.admittedAtMs := by
  simp only [settleCharge]
  split <;> rfl

@[simp] theorem settleCharge_estimate : (settleCharge id actual e).estimate = e.estimate := by
  simp only [settleCharge]
  split <;> rfl

theorem settleCharge_of_ne (h : e.id ≠ id) : settleCharge id actual e = e := if_neg h

@[simp] theorem inside_settleCharge :
    (settleCharge id actual e).inside key width index = e.inside key width index := by
  simp [Charge.inside]

theorem map_settleCharge_id :
    (charges.map (settleCharge id actual)).map Charge.id = charges.map Charge.id := by
  simp

theorem charged_append : charged key width index (charges ++ [e]) =
    charged key width index charges + if e.inside key width index then e.amount else 0 := by
  simp [charged, total_append, total_cons]

theorem amount_le_charged (he : e ∈ charges) (hin : e.inside key width index = true) :
    e.amount ≤ charged key width index charges := by
  obtain ⟨l, r, rfl⟩ := append_of_mem he
  simp only [charged, total_append, total_cons, hin, if_true]
  omega

theorem eq_of_id_eq (hids : (charges.map Charge.id).Nodup) (he : e ∈ charges) (he₀ : e₀ ∈ charges)
    (h : e.id = e₀.id) : e = e₀ := inj_on_of_nodup_map hids he he₀ h

theorem charged_settle (hids : (charges.map Charge.id).Nodup) (he₀ : e₀ ∈ charges)
    (key : String) (width index actual : ℕ) :
    charged key width index (charges.map (settleCharge e₀.id actual)) +
        (if e₀.inside key width index then e₀.amount else 0) =
      charged key width index charges + (if e₀.inside key width index then actual else 0) := by
  have hself : (settleCharge e₀.id actual e₀).amount = actual := by
    simp [settleCharge, Charge.amount]
  rw [charged, total_map fun _ _ => inside_settleCharge]
  nth_rewrite 2 [← hself]
  refine total_change he₀ hids.of_map fun e he hne => ?_
  rw [settleCharge_of_ne fun h => hne (eq_of_id_eq hids he he₀ h)]

end Lists

section Counters

variable {t ttl : ℕ} {delta : ℤ} {slot : Option (Slot ℤ)}

theorem incrBy_eq (h : visible t slot = slot) (hlow : 0 ≤ counterValue slot + delta)
    (hhigh : counterValue slot + delta ≤ i64Max) :
    incrBy t delta slot = some (rewrite t (counterValue slot + delta) slot) := by
  have hin : -2 ^ 63 ≤ counterValue slot + delta ∧ counterValue slot + delta ≤ i64Max :=
    ⟨by omega, hhigh⟩
  simp only [incrBy, h]
  exact if_pos hin

theorem addUsage_eq (h : visible t slot = slot) (hlow : 0 ≤ counterValue slot + delta)
    (hhigh : counterValue slot + delta ≤ i64Max) :
    addUsage t ttl delta slot =
      some ⟨counterValue slot + delta,
        some (max ((slot.bind Slot.expiresAt).getD 0) (t + ttl))⟩ := by
  rw [addUsage, incrBy_eq h hlow hhigh, Option.some_or, Option.map_some, extendSharedTtl,
    extend_eq, rewrite, h]

end Counters

/-- The store against the ghost list: every recorded reservation is an unsettled admission, and
every counter holds the charges of its sub-window. -/
structure Books (c : ValkeySlidingWindowConfig) (s : Store) (charges : List Charge) : Prop where
  ids : (charges.map Charge.id).Nodup
  below : ∀ e ∈ charges, e.id ≤ s.seq
  bounded : ∀ e ∈ charges, e.estimate ≤ u64Max ∧ e.admittedAtMs ≤ u64Max
  held : ∀ key id slot, (s.reservation key id).slot = some slot →
    ∃ e ∈ charges, e.key = key ∧ e.id = id ∧ e.settled = none ∧
      slot.value = formatReservation e.estimate e.admittedAtMs
  balanced : ∀ key, ∀ width ∈ c.widths, ∀ i,
    counterValue (s.usage key width.bucketMs i) = charged key width.bucketMs i charges

/-- The counters of one admission time are all there, none of them expired. -/
def CountersVisible (c : ValkeySlidingWindowConfig) (t : ℕ) (s : Store) (key : String)
    (admittedAtMs : ℕ) : Prop :=
  ∀ width ∈ c.widths, visible t (s.usage key width.bucketMs
    (bucketIndex admittedAtMs width.bucketMs)) =
      s.usage key width.bucketMs (bucketIndex admittedAtMs width.bucketMs)

variable {c : ValkeySlidingWindowConfig} {s s' : Store} {charges : List Charge} {t : ℕ}

theorem books_new (c : ValkeySlidingWindowConfig) : Books c Store.new [] := by
  constructor
  · exact nodup_nil
  · simp
  · simp
  · intro key id slot h
    cases h
  · intro key width _ i
    rfl

theorem Books.congr (h : Books c s charges) (husage : s'.usage = s.usage)
    (hres : s'.reservation = s.reservation) (hseq : s.seq ≤ s'.seq) : Books c s' charges := by
  constructor
  · exact h.ids
  · exact fun e he => (h.below e he).trans hseq
  · exact h.bounded
  · rw [hres]
    exact h.held
  · rw [husage]
    exact h.balanced

theorem widths_nodup (c : ValkeySlidingWindowConfig) :
    (c.widths.map CounterWidth.bucketMs).Nodup := (counterWidths_spec _ _).nodup

/-- The counters after a change to those of one admission time. -/
theorem addUsageDelta_balanced {charges' : List Charge} {key : String} {admittedAtMs : ℕ}
    {delta : ℤ}
    (hbalanced : ∀ key, ∀ width ∈ c.widths, ∀ i,
      counterValue (s.usage key width.bucketMs i) = charged key width.bucketMs i charges)
    (hvisible : CountersVisible c t s key admittedAtMs) (hfits : Fits c charges')
    (hcharged : ∀ k w i, (charged k w i charges' : ℤ) = charged k w i charges +
      if k = key ∧ bucketIndex admittedAtMs w = i then delta else 0) :
    (addUsageDelta t key admittedAtMs delta c.widths s).2 = true ∧
      ∀ k, ∀ width ∈ c.widths, ∀ i,
        counterValue ((addUsageDelta t key admittedAtMs delta c.widths s).1.usage k
          width.bucketMs i) = charged k width.bucketMs i charges' := by
  have hhere : ∀ width ∈ c.widths,
      counterValue (s.usage key width.bucketMs (bucketIndex admittedAtMs width.bucketMs)) + delta =
        charged key width.bucketMs (bucketIndex admittedAtMs width.bucketMs) charges' := by
    intro width hwidth
    rw [hcharged, if_pos ⟨rfl, rfl⟩, hbalanced key width hwidth]
  have hroom : ∀ width ∈ c.widths, (charged key width.bucketMs
      (bucketIndex admittedAtMs width.bucketMs) charges' : ℤ) ≤ i64Max :=
    fun width hwidth => Int.ofNat_le.mpr (hfits key width hwidth _)
  constructor
  · refine addUsageDelta_ok (widths_nodup c) fun width hwidth => ?_
    rw [incrBy_eq (hvisible width hwidth)]
    · rfl
    · rw [hhere width hwidth]
      exact Int.natCast_nonneg _
    · rw [hhere width hwidth]
      exact hroom width hwidth
  · intro k width hwidth i
    by_cases hk : k = key ∧ bucketIndex admittedAtMs width.bucketMs = i
    · obtain ⟨rfl, rfl⟩ := hk
      rw [addUsageDelta_mem (widths_nodup c) hwidth, addUsage_eq (hvisible width hwidth), ← hhere
        width hwidth]
      · rfl
      · rw [hhere width hwidth]
        exact Int.natCast_nonneg _
      · rw [hhere width hwidth]
        exact hroom width hwidth
    · rw [addUsageDelta_other fun h => hk ⟨h.1, h.2.2.symm⟩, hbalanced k width hwidth, hcharged,
        if_neg hk, add_zero]

theorem admitRequest_seq (request : ReserveRequest) :
    (admitRequest c t s request).1.seq = s.seq + 1 := addUsageDelta_seq

theorem admitRequest_slot (request : ReserveRequest) (key : String) (id : ℕ) :
    ((admitRequest c t s request).1.reservation key id).slot =
      if key = request.key ∧ id = s.seq + 1 then
        some ⟨formatReservation request.estimate request.nowMs, some (t + c.reservationTimeoutMs)⟩
      else (s.reservation key id).slot := by
  simp only [admitRequest, recordActiveReservation, retainKey, addUsageDelta_reservation]
  by_cases hk : key = request.key
  · subst hk
    by_cases hid : id = s.seq + 1
    · subst hid
      simp
    · simp [hid]
  · simp [hk]

theorem settlementPipeline_seq (request : ReconcileRequest) (admittedAtMs : ℕ) (delta : ℤ) :
    (settlementPipeline c t s request admittedAtMs delta).1.seq = s.seq := addUsageDelta_seq

theorem settlementPipeline_slot (request : ReconcileRequest) (admittedAtMs : ℕ) (delta : ℤ)
    (key : String) (id : ℕ) :
    ((settlementPipeline c t s request admittedAtMs delta).1.reservation key id).slot =
      if key = request.key ∧ id = request.reservationId then none
      else (s.reservation key id).slot := by
  simp only [settlementPipeline, retainKey, addUsageDelta_reservation]
  by_cases hk : key = request.key
  · subst hk
    by_cases hid : id = request.reservationId
    · subst hid
      simp
    · simp [hid]
  · simp [hk]

theorem Books.admitRequest (h : Books c s charges) (request : ReserveRequest)
    (hestimate : request.estimate ≤ u64Max) (hnow : request.nowMs ≤ u64Max)
    (hvisible : CountersVisible c t s request.key request.nowMs)
    (hfits : Fits c (charges ++ [newCharge request (s.seq + 1)])) :
    Books c (ValkeySlidingWindow.admitRequest c t s request).1
        (charges ++ [newCharge request (s.seq + 1)]) ∧
      (ValkeySlidingWindow.admitRequest c t s request).2 = .ok (s.seq + 1) := by
  have hdelta : c.widths ≠ [] → toI64 request.estimate = request.estimate := by
    intro hwidths
    obtain ⟨width, hwidth⟩ := exists_mem_of_ne_nil _ hwidths
    have hle := hfits request.key width hwidth (bucketIndex request.nowMs width.bucketMs)
    rw [charged_append, if_pos (by simp [Charge.inside, newCharge])] at hle
    refine toI64_of_le (le_trans ?_ hle)
    simp [newCharge, Charge.amount]
  obtain ⟨hok, hbalanced⟩ : (addUsageDelta t request.key request.nowMs (toI64 request.estimate)
      c.widths { s with seq := s.seq + 1 }).2 = true ∧ ∀ k, ∀ width ∈ c.widths, ∀ i,
        counterValue ((addUsageDelta t request.key request.nowMs (toI64 request.estimate)
          c.widths { s with seq := s.seq + 1 }).1.usage k width.bucketMs i) =
            charged k width.bucketMs i (charges ++ [newCharge request (s.seq + 1)]) := by
    by_cases hwidths : c.widths = []
    · rw [hwidths]
      exact ⟨rfl, fun _ _ h => nomatch h⟩
    · rw [hdelta hwidths]
      refine addUsageDelta_balanced h.balanced hvisible hfits ?_
      intro k w i
      rw [charged_append]
      by_cases hk : k = request.key ∧ bucketIndex request.nowMs w = i
      · rw [if_pos hk, if_pos (by simp [Charge.inside, newCharge, hk.1, hk.2])]
        simp [newCharge, Charge.amount]
      · rw [if_neg hk, if_neg]
        · simp
        · rw [Charge.inside, decide_eq_true_eq]
          exact fun hin => hk ⟨hin.1.symm, hin.2⟩
  refine ⟨⟨?_, ?_, ?_, ?_, hbalanced⟩, ?_⟩
  · rw [map_append, nodup_append]
    refine ⟨h.ids, nodup_singleton _, ?_⟩
    intro i hi j hj
    obtain ⟨e, he, rfl⟩ := mem_map.mp hi
    obtain rfl := mem_singleton.mp hj
    exact (Nat.lt_succ_of_le (h.below e he)).ne
  · intro e he
    rw [admitRequest_seq]
    rcases mem_append.mp he with he | he
    · exact (h.below e he).trans (Nat.le_succ _)
    · obtain rfl := mem_singleton.mp he
      exact le_rfl
  · intro e he
    rcases mem_append.mp he with he | he
    · exact h.bounded e he
    · obtain rfl := mem_singleton.mp he
      exact ⟨hestimate, hnow⟩
  · intro key id slot hslot
    rw [admitRequest_slot] at hslot
    split at hslot
    · next hthis =>
      obtain rfl := Option.some.inj hslot
      exact ⟨_, mem_append_right _ (mem_singleton_self _), hthis.1.symm, hthis.2.symm, rfl, rfl⟩
    · obtain ⟨e, he, hspec⟩ := h.held key id slot hslot
      exact ⟨e, mem_append_left _ he, hspec⟩
  · simp only [ValkeySlidingWindow.admitRequest, hok, if_true]

/-- What a commit plan has read is an unsettled admission. -/
theorem Books.planned (h : Books c s charges) {request : ReconcileRequest}
    {slot : Slot (List Char)} {estimate admittedAtMs actual : ℕ}
    (hslot : (s.reservation request.key request.reservationId).slot = some slot)
    (hplan : planReconcile (some slot.value) request.actual =
      .commit estimate admittedAtMs actual) :
    ∃ e ∈ charges, e.key = request.key ∧ e.id = request.reservationId ∧ e.settled = none ∧
      e.estimate = estimate ∧ e.admittedAtMs = admittedAtMs := by
  obtain ⟨e, he, hkey, hid, hsettled, hvalue⟩ := h.held _ _ _ hslot
  obtain ⟨hestimate, hadmitted⟩ := h.bounded e he
  simp only [planReconcile, hvalue, parseReservation_format hestimate hadmitted,
    ReconcilePlan.commit.injEq] at hplan
  exact ⟨e, he, hkey, hid, hsettled, hplan.1, hplan.2.1⟩

theorem Books.settlementPipeline (h : Books c s charges) {request : ReconcileRequest} {e₀ : Charge}
    {actual : ℕ} (he₀ : e₀ ∈ charges) (hkey : e₀.key = request.key)
    (hid : e₀.id = request.reservationId) (hsettled : e₀.settled = none)
    (hvisible : CountersVisible c t s request.key e₀.admittedAtMs) (hbefore : Fits c charges)
    (hfits : Fits c (charges.map (settleCharge request.reservationId actual))) :
    Books c (ValkeySlidingWindow.settlementPipeline c t s request e₀.admittedAtMs
        (settlementDelta e₀.estimate actual)).1
        (charges.map (settleCharge request.reservationId actual)) ∧
      (ValkeySlidingWindow.settlementPipeline c t s request e₀.admittedAtMs
        (settlementDelta e₀.estimate actual)).2 = true := by
  have hamount : e₀.amount = e₀.estimate := by
    rw [Charge.amount, hsettled, Option.getD_none]
  have hcharged : ∀ k w i, (charged k w i
      (charges.map (settleCharge request.reservationId actual)) : ℤ) = charged k w i charges +
        if k = request.key ∧ bucketIndex e₀.admittedAtMs w = i then (actual - e₀.estimate : ℤ)
        else 0 := by
    intro k w i
    have hsettle := charged_settle h.ids he₀ k w i actual
    rw [hid, hamount] at hsettle
    by_cases hk : k = request.key ∧ bucketIndex e₀.admittedAtMs w = i
    · have hin : e₀.inside k w i = true := by simp [Charge.inside, hkey, hk.1, hk.2]
      rw [if_pos hk]
      simp only [hin, if_true] at hsettle
      omega
    · have hin : e₀.inside k w i = false := by
        simp only [Charge.inside, hkey, decide_eq_false_iff_not]
        exact fun hin => hk ⟨hin.1.symm, hin.2⟩
      rw [if_neg hk]
      simp only [hin, Bool.false_eq_true, if_false] at hsettle
      omega
  have hdelta : c.widths ≠ [] →
      settlementDelta e₀.estimate actual = (actual : ℤ) - e₀.estimate := by
    intro hwidths
    obtain ⟨width, hwidth⟩ := exists_mem_of_ne_nil _ hwidths
    have hin : e₀.inside request.key width.bucketMs
        (bucketIndex e₀.admittedAtMs width.bucketMs) = true := by simp [Charge.inside, hkey]
    have hold := amount_le_charged he₀ hin
    have hnew := amount_le_charged (e := settleCharge request.reservationId actual e₀)
      (mem_map_of_mem he₀) (inside_settleCharge.trans hin)
    have hself : (settleCharge request.reservationId actual e₀).amount = actual := by
      simp [settleCharge, Charge.amount, hid]
    rw [hamount] at hold
    rw [hself] at hnew
    have hold' := hold.trans (hbefore _ width hwidth _)
    have hnew' := hnew.trans (hfits _ width hwidth _)
    rw [settlementDelta, toI64_of_le hold', toI64_of_le hnew', clampI64]
    simp only [i64Max] at *
    omega
  obtain ⟨hok, hbalanced⟩ : (addUsageDelta t request.key e₀.admittedAtMs
      (settlementDelta e₀.estimate actual) c.widths s).2 = true ∧ ∀ k, ∀ width ∈ c.widths, ∀ i,
        counterValue ((addUsageDelta t request.key e₀.admittedAtMs
          (settlementDelta e₀.estimate actual) c.widths s).1.usage k width.bucketMs i) =
            charged k width.bucketMs i
              (charges.map (settleCharge request.reservationId actual)) := by
    by_cases hwidths : c.widths = []
    · rw [hwidths]
      exact ⟨rfl, fun _ _ h => nomatch h⟩
    · rw [hdelta hwidths]
      exact addUsageDelta_balanced h.balanced hvisible hfits hcharged
  refine ⟨⟨?_, ?_, ?_, ?_, hbalanced⟩, hok⟩
  · rw [map_settleCharge_id]
    exact h.ids
  · intro e he
    obtain ⟨e', he', rfl⟩ := mem_map.mp he
    rw [settlementPipeline_seq, settleCharge_id]
    exact h.below e' he'
  · intro e he
    obtain ⟨e', he', rfl⟩ := mem_map.mp he
    rw [settleCharge_estimate, settleCharge_admittedAtMs]
    exact h.bounded e' he'
  · intro key id slot hslot
    rw [settlementPipeline_slot] at hslot
    split at hslot
    · cases hslot
    · next hother =>
      obtain ⟨e, he, hk, hi, hspec⟩ := h.held key id slot hslot
      refine ⟨e, ?_, hk, hi, hspec⟩
      refine mem_map.mpr ⟨e, he, settleCharge_of_ne fun heq => hother ⟨?_, hi ▸ heq⟩⟩
      rw [← hk, eq_of_id_eq h.ids he he₀ (heq.trans hid.symm), hkey]

end UsageCharges
