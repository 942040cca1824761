import PraxisAi.ReservationLedger

/-! # What one call does to the state of each key

A key that is absent is read as a fresh one, since that is what a call on it would find. Each
operation of the ledger is described once by the states it leaves behind; the properties of
whole runs are derived from these descriptions. -/
namespace LedgerViews

open KeyedMaps ReservationLedger

variable {σ : Type} (P : KeyPolicy σ)

def view (L : Ledger σ) (key : String) : σ := (L.keys.lookup key).getD P.fresh

theorem view_insert {L L' : Ledger σ} {key : String} {s : σ}
    (h : L'.keys = L.keys.insert key s) (k : String) :
    view P L' k = if k = key then s else view P L k := by
  unfold view
  rw [h]
  by_cases hk : k = key
  · subst hk
    simp
  · simp [hk, AList.lookup_insert_ne hk]

theorem view_erase {L L' : Ledger σ} {key : String} (h : L'.keys = L.keys.erase key)
    (k : String) : view P L' k = if k = key then P.fresh else view P L k := by
  unfold view
  rw [h]
  by_cases hk : k = key
  · subst hk
    simp
  · simp [hk, AList.lookup_erase_ne hk]

variable {P} {B : Bounds} {L : Ledger σ} {t : ℕ}

theorem view_of_lookup {key : String} {s : σ} (h : L.keys.lookup key = some s) :
    view P L key = s := by
  unfold view
  rw [h]
  rfl

theorem view_of_absent {key : String} (h : L.keys.lookup key = none) :
    view P L key = P.fresh := by
  unfold view
  rw [h]
  rfl

theorem view_of_allKeys {J : ℕ → σ → Prop} {ok : ActiveReservation → ℕ → Prop}
    (hJ : KeyInvariant P J ok) (h : AllKeys J t L) (key : String) : J t (view P L key) := by
  rcases hs : L.keys.lookup key with _ | s
  · rw [view_of_absent hs]
    exact hJ.fresh t
  · rw [view_of_lookup hs]
    exact h key s hs

/-- The `entry` loop hands out the key's state and changes no key's state. -/
theorem entry_spec {L' : Ledger σ} {key : String} {s : σ}
    (h : entry P B L key = some (L', s)) :
    s = view P L key ∧ (∀ k, view P L' k = view P L k) ∧ L'.reservations = L.reservations ∧
      L'.nextId = L.nextId ∧ L'.activeReservations = L.activeReservations := by
  unfold entry at h
  split at h
  · next s₀ hs₀ =>
    obtain ⟨rfl, rfl⟩ := Prod.mk.inj (Option.some.inj h)
    exact ⟨(view_of_lookup hs₀).symm, fun _ => rfl, rfl, rfl, rfl⟩
  · next habsent =>
    split at h
    · obtain ⟨rfl, rfl⟩ := Prod.mk.inj (Option.some.inj h)
      refine ⟨(view_of_absent habsent).symm, fun k => ?_, rfl, rfl, rfl⟩
      rw [view_insert P rfl]
      split
      · next hk => rw [hk, view_of_absent habsent]
      · rfl
    · cases h

theorem reserve_cases (P : KeyPolicy σ) (B : Bounds) (o : IterOrder) (L : Ledger σ)
    (key : String) (estimate t : ℕ) :
    (InvalidKey B key estimate ∧
        reserve P B o L key estimate t = (L, .denied 0 .invalidKey 0)) ∨
      (¬ InvalidKey B key estimate ∧ entry P B L key = none ∧
        reserve P B o L key estimate t = (L, .denied 0 .keyCapacity 0)) ∨
      (¬ InvalidKey B key estimate ∧ ∃ L', entry P B L key = some (L', view P L key) ∧
        reserve P B o L key estimate t =
          reserveLocked P B o L' key (view P L key) estimate t) := by
  by_cases hbad : InvalidKey B key estimate
  · exact .inl ⟨hbad, if_pos hbad⟩
  · rcases hentry : entry P B L key with _ | ⟨L', s⟩
    · exact .inr (.inl ⟨hbad, rfl, by simp only [reserve, hbad, if_false, hentry]⟩)
    · obtain ⟨rfl, -⟩ := entry_spec hentry
      exact .inr (.inr ⟨hbad, L', rfl, by simp only [reserve, hbad, if_false, hentry]⟩)

theorem reserveLocked_cases (P : KeyPolicy σ) (B : Bounds) (o : IterOrder) (L : Ledger σ)
    (key : String) (s : σ) (estimate t : ℕ) :
    let touched := (P.touch o t s).1
    let L' := L.forget (P.touch o t s).2
    let v := P.judge t estimate touched
    (∃ retry, v.exhausted = some retry ∧ reserveLocked P B o L key s estimate t =
        (L'.put key touched, .denied retry .windowCapacity v.remaining)) ∨
      (v.exhausted = none ∧ ¬ L'.activeReservations < B.maxActiveReservations ∧
        reserveLocked P B o L key s estimate t = (L'.put key touched,
          .denied B.reservationTimeoutMs .reservationCapacity v.remaining)) ∨
      (v.exhausted = none ∧ L'.activeReservations < B.maxActiveReservations ∧
        reserveLocked P B o L key s estimate t =
          (L'.record key (P.hold L.nextId ⟨estimate, t⟩ touched),
            .admitted ⟨L.nextId, estimate, t, v.usageAfter, v.remainingAfter⟩)) := by
  intro touched L' v
  rcases hx : v.exhausted with _ | retry
  · by_cases hroom : L'.activeReservations < B.maxActiveReservations
    · refine .inr (.inr ⟨rfl, hroom, ?_⟩)
      simp only [reserveLocked, v, touched, L'] at *
      simp only [hx, hroom, if_true]
      rfl
    · refine .inr (.inl ⟨rfl, hroom, ?_⟩)
      simp only [reserveLocked, v, touched, L'] at *
      simp only [hx, hroom, if_false]
  · refine .inl ⟨retry, rfl, ?_⟩
    simp only [reserveLocked, v, touched, L'] at *
    simp only [hx]

/-- Reconciling on a key that is gone answers as it would on a fresh one. -/
theorem reconcile_view (o : IterOrder) (L : Ledger σ) {id : ℕ} {key : String}
    (actual : Option ℕ) (t : ℕ) (h : L.reservations.lookup id = some key) :
    (reconcile P o L id actual t) =
      reconcileLocked P o { L with reservations := L.reservations.erase id } key (view P L key)
        id actual t := by
  unfold ReservationLedger.reconcile view
  rw [h]
  dsimp only
  rcases L.keys.lookup key with _ | s
  · simp [ReservationLedger.reconcileLocked, P.active_fresh]
  · rfl

theorem reconcile_cases (P : KeyPolicy σ) (o : IterOrder) (L : Ledger σ) (id : ℕ)
    (actual : Option ℕ) (t : ℕ) :
    (reconcile P o L id actual t =
        ({ L with reservations := L.reservations.erase id }, .noop) ∧
      ∀ key, L.reservations.lookup id = some key →
        (P.active (view P L key)).lookup id = none) ∨
      ∃ key r, L.reservations.lookup id = some key ∧
        (P.active (view P L key)).lookup id = some r ∧
        let settled := P.settle o t r (actual.getD r.estimate) (P.release id (view P L key))
        reconcile P o L id actual t =
          ((({ L with
              reservations := L.reservations.erase id
              activeReservations := L.activeReservations - 1 }.forget settled.2).put key settled.1),
            .applied (actual.getD r.estimate) (r.estimate - actual.getD r.estimate)
              (actual.getD r.estimate - r.estimate)) := by
  rcases hkey : L.reservations.lookup id with _ | key
  · have hgone := erase_of_not_mem (lookup_eq_none_iff.mp hkey)
    refine .inl ⟨?_, fun _ h => nomatch h⟩
    simp only [reconcile, hkey, hgone]
  · rw [reconcile_view o L actual t hkey]
    rcases hr : (P.active (view P L key)).lookup id with _ | r
    · refine .inl ⟨by simp only [reconcileLocked, hr], fun k hk => ?_⟩
      rw [Option.some.injEq] at hk
      subst hk
      exact hr
    · exact .inr ⟨key, r, rfl, hr, by simp only [reconcileLocked, hr]⟩

/-- What a turn of `cleanup` leaves of a state: reaped, or dropped once empty, or still absent. -/
def Swept (P : KeyPolicy σ) (o : IterOrder) (t : ℕ) (s s' : σ) : Prop :=
  s' = (P.touch o t s).1 ∨
    s' = P.fresh ∧ (P.isEmpty (P.touch o t s).1 = true ∨ s = P.fresh)

theorem cleanupKey_spec (P : KeyPolicy σ) (o : IterOrder) (L : Ledger σ) (t : ℕ)
    (key : String) :
    let expired := (P.touch o t (view P L key)).2
    let L' := (cleanupKey P o L t key).1
    (∃ s', Swept P o t (view P L key) s' ∧
      ∀ k, view P L' k = if k = key then s' else view P L k) ∧
    L'.reservations = eraseAll expired L.reservations ∧ L'.nextId = L.nextId ∧
    L'.activeReservations = L.activeReservations - expired.length ∧
    (cleanupKey P o L t key).2 = expired.length := by
  rcases hs : L.keys.lookup key with _ | s
  · have hview := view_of_absent (P := P) hs
    have hnil := touch_expired_of_inactive P.active_fresh o t
    simp only [cleanupKey, hs, hview, hnil, eraseAll_nil, List.length_nil, and_true]
    refine ⟨⟨P.fresh, .inr ⟨rfl, .inr rfl⟩, fun k => ?_⟩, by simp⟩
    split
    · next hk => rw [hk, hview]
    · rfl
  · have hview := view_of_lookup (P := P) hs
    simp only [cleanupKey, hs, hview]
    by_cases he : P.isEmpty (P.touch o t s).1 = true
    · simp only [he, if_true]
      refine ⟨⟨P.fresh, .inr ⟨rfl, .inl he⟩, fun k => ?_⟩, rfl, rfl, rfl, trivial⟩
      rw [view_erase P rfl]
      split
      · rfl
      · next hk => rw [view_insert P rfl, if_neg hk]; rfl
    · simp only [he]
      exact ⟨⟨_, .inl rfl, fun k => view_insert P rfl k⟩, rfl, rfl, rfl, trivial⟩

end LedgerViews
