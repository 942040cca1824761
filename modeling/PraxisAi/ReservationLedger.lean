import PraxisAi.KeyedMaps
import PraxisAi.TimedRuns
import Mathlib.Algebra.Order.Group.Int

/-! # The reservation ledger shared by both in-process rate limiters

`ledger.rs` and `token_bucket_ledger.rs` differ in what one key stores and how much
of it is available; the reserve, reconcile and cleanup around that are the same code.
Here that code is written once over the operations on one key's state. Counters are
integers, so that an underflow would show as a negative value. -/
namespace ReservationLedger

open KeyedMaps

inductive DenialReason where
  | invalidKey
  | keyCapacity
  | windowCapacity
  | reservationCapacity
  deriving DecidableEq

structure Reservation where
  id : ℕ
  estimate : ℕ
  createdAtMs : ℕ
  usageAfter : ℕ
  remaining : ℕ
  deriving DecidableEq

inductive Decision where
  | admitted (reservation : Reservation)
  | denied (retryAfterMs : ℕ) (reason : DenialReason) (remaining : ℕ)
  deriving DecidableEq

inductive Settlement where
  | applied (actual refund overage : ℕ)
  | noop
  deriving DecidableEq

structure ActiveReservation where
  estimate : ℕ
  createdAtMs : ℕ
  deriving DecidableEq

abbrev ActiveMap := KeyedMap ℕ ActiveReservation

/-- The order in which a hash map yields its keys: any permutation, chosen anew
for every iteration. -/
structure IterOrder where
  arrange : List ℕ → List ℕ
  perm : ∀ l, (arrange l).Perm l

def IterOrder.asStored : IterOrder := ⟨id, fun _ => List.Perm.refl _⟩

/-- Ids whose reservation has been active for at least the timeout, as `reap` collects them. -/
def expiredIds (order : IterOrder) (nowMs timeoutMs : ℕ) (active : ActiveMap) : List ℕ :=
  order.arrange ((active.entries.filter fun e => timeoutMs ≤ nowMs - e.2.createdAtMs).map (·.1))

theorem mem_expiredIds {o : IterOrder} {t timeout : ℕ} {m : ActiveMap} {id : ℕ} :
    id ∈ expiredIds o t timeout m ↔
      ∃ r, m.lookup id = some r ∧ timeout ≤ t - r.createdAtMs := by
  unfold expiredIds
  rw [(o.perm _).mem_iff]
  simp only [List.mem_map, List.mem_filter, decide_eq_true_eq]
  constructor
  · rintro ⟨⟨i, r⟩, ⟨hm, ht⟩, rfl⟩
    exact ⟨r, Option.mem_def.mp (AList.mem_lookup_iff.mpr hm), ht⟩
  · rintro ⟨r, hr, ht⟩
    exact ⟨⟨id, r⟩, ⟨AList.mem_lookup_iff.mp hr, ht⟩, rfl⟩

theorem expiredIds_nodup (o : IterOrder) (t timeout : ℕ) (m : ActiveMap) :
    (expiredIds o t timeout m).Nodup := by
  unfold expiredIds
  rw [(o.perm _).nodup_iff]
  exact (List.filter_sublist.map _).nodup m.keys_nodup

theorem expiredIds_active (o : IterOrder) (t timeout : ℕ) (m : ActiveMap) :
    (expiredIds o t timeout m).Nodup ∧ ∀ id ∈ expiredIds o t timeout m, id ∈ m := by
  refine ⟨expiredIds_nodup o t timeout m, fun id h => ?_⟩
  obtain ⟨r, hr, -⟩ := mem_expiredIds.mp h
  exact mem_of_lookup hr

/-- What the locked section of `reserve` reads off one key before the bound on active
reservations: `exhausted` is the retry delay of a budget denial. -/
structure Verdict where
  remaining : ℕ
  exhausted : Option ℕ
  usageAfter : ℕ
  remainingAfter : ℕ

/-- The operations on one key's state. `touch` is what reserve and cleanup do on taking the
key's lock, `settle` what reconcile does once the reservation has left the active map;
both report the ids they reaped. The laws say which ids stay active. -/
structure KeyPolicy (σ : Type) where
  fresh : σ
  active : σ → ActiveMap
  touch : IterOrder → ℕ → σ → σ × List ℕ
  judge : ℕ → ℕ → σ → Verdict
  hold : ℕ → ActiveReservation → σ → σ
  release : ℕ → σ → σ
  settle : IterOrder → ℕ → ActiveReservation → ℕ → σ → σ × List ℕ
  isEmpty : σ → Bool
  active_fresh : active fresh = ∅
  active_touch : ∀ o t s, active (touch o t s).1 = eraseAll (touch o t s).2 (active s)
  touch_expired : ∀ o t s, (touch o t s).2.Nodup ∧ ∀ id ∈ (touch o t s).2, id ∈ active s
  active_hold : ∀ id r s, active (hold id r s) = (active s).insert id r
  active_release : ∀ id s, active (release id s) = (active s).erase id
  active_settle : ∀ o t r a s,
    active (settle o t r a s).1 = eraseAll (settle o t r a s).2 (active s)
  settle_expired : ∀ o t r a s,
    (settle o t r a s).2.Nodup ∧ ∀ id ∈ (settle o t r a s).2, id ∈ active s
  active_of_isEmpty : ∀ s, isEmpty s = true → active s = ∅

/-- The bounds both configurations share. -/
structure Bounds where
  reservationTimeoutMs : ℕ
  maxKeys : ℕ
  maxKeyLength : ℕ
  maxActiveReservations : ℕ

structure Ledger (σ : Type) where
  keys : KeyedMap String σ
  reservations : KeyedMap ℕ String
  nextId : ℕ
  keyCount : ℤ
  activeReservations : ℤ

def Ledger.new {σ : Type} : Ledger σ := ⟨∅, ∅, 1, 0, 0⟩

variable {σ : Type} (P : KeyPolicy σ) (B : Bounds)

def Ledger.put (L : Ledger σ) (key : String) (s : σ) : Ledger σ :=
  { L with keys := L.keys.insert key s }

def Ledger.forget (L : Ledger σ) (expired : List ℕ) : Ledger σ :=
  { L with
    reservations := eraseAll expired L.reservations
    activeReservations := L.activeReservations - expired.length }

/-- An admitted reservation, once the key's state holds it. -/
def Ledger.record (L : Ledger σ) (key : String) (s : σ) : Ledger σ :=
  { L with
    keys := L.keys.insert key s
    reservations := L.reservations.insert L.nextId key
    nextId := L.nextId + 1
    activeReservations := L.activeReservations + 1 }

/-- The `entry` loop of `reserve`: the key's state, created under the key bound if absent. -/
def entry (L : Ledger σ) (key : String) : Option (Ledger σ × σ) :=
  match L.keys.lookup key with
  | some s => some (L, s)
  | none =>
    if L.keyCount < B.maxKeys then
      some ({ L with keys := L.keys.insert key P.fresh, keyCount := L.keyCount + 1 }, P.fresh)
    else none

/-- The part of `reserve` that runs under the key's lock. -/
def reserveLocked (order : IterOrder) (L : Ledger σ) (key : String) (s : σ)
    (estimate nowMs : ℕ) : Ledger σ × Decision :=
  let (s, expired) := P.touch order nowMs s
  let L := L.forget expired
  let v := P.judge nowMs estimate s
  match v.exhausted with
  | some retryAfterMs => (L.put key s, .denied retryAfterMs .windowCapacity v.remaining)
  | none =>
    if L.activeReservations < B.maxActiveReservations then
      (L.record key (P.hold L.nextId ⟨estimate, nowMs⟩ s),
        .admitted ⟨L.nextId, estimate, nowMs, v.usageAfter, v.remainingAfter⟩)
    else (L.put key s, .denied B.reservationTimeoutMs .reservationCapacity v.remaining)

def InvalidKey (key : String) (estimate : ℕ) : Prop :=
  key.isEmpty ∨ B.maxKeyLength < key.utf8ByteSize ∨ estimate = 0

instance (key : String) (estimate : ℕ) : Decidable (InvalidKey B key estimate) :=
  inferInstanceAs (Decidable (_ ∨ _ ∨ _))

def reserve (order : IterOrder) (L : Ledger σ) (key : String) (estimate nowMs : ℕ) :
    Ledger σ × Decision :=
  if InvalidKey B key estimate then
    (L, .denied 0 .invalidKey 0)
  else
    match entry P B L key with
    | none => (L, .denied 0 .keyCapacity 0)
    | some (L, s) => reserveLocked P B order L key s estimate nowMs

/-- The part of `reconcile` that runs under the key's lock, once the id has left
`reservations`. -/
def reconcileLocked (order : IterOrder) (L : Ledger σ) (key : String) (s : σ) (id : ℕ)
    (actual : Option ℕ) (nowMs : ℕ) : Ledger σ × Settlement :=
  match (P.active s).lookup id with
  | none => (L, .noop)
  | some r =>
    let actual := actual.getD r.estimate
    let (s, expired) := P.settle order nowMs r actual (P.release id s)
    let L := { L with activeReservations := L.activeReservations - 1 }
    ((L.forget expired).put key s, .applied actual (r.estimate - actual) (actual - r.estimate))

def reconcile (order : IterOrder) (L : Ledger σ) (id : ℕ) (actual : Option ℕ) (nowMs : ℕ) :
    Ledger σ × Settlement :=
  match L.reservations.lookup id with
  | none => (L, .noop)
  | some key =>
    let L := { L with reservations := L.reservations.erase id }
    match L.keys.lookup key with
    | none => (L, .noop)
    | some s => reconcileLocked P order L key s id actual nowMs

/-- One turn of the `cleanup` loop, with the number of reservations it orphaned. -/
def cleanupKey (order : IterOrder) (L : Ledger σ) (nowMs : ℕ) (key : String) : Ledger σ × ℕ :=
  match L.keys.lookup key with
  | none => (L, 0)
  | some s =>
    let (s, expired) := P.touch order nowMs s
    let L := (L.forget expired).put key s
    (if P.isEmpty s then { L with keys := L.keys.erase key, keyCount := L.keyCount - 1 } else L,
      expired.length)

/-- `scan` is what `keys.iter().take(max_keys_to_scan)` collected, in whatever order the
shards yielded it, each key with the order its own active map will be read in. -/
def cleanup (L : Ledger σ) (nowMs : ℕ) : List (IterOrder × String) → Ledger σ × ℕ
  | [] => (L, 0)
  | (order, key) :: scan =>
    let (L, orphaned) := cleanupKey P order L nowMs key
    let (L, rest) := cleanup L nowMs scan
    (L, orphaned + rest)

inductive Call where
  | reserve (order : IterOrder) (key : String) (estimate nowMs : ℕ)
  | reconcile (order : IterOrder) (id : ℕ) (actual : Option ℕ) (nowMs : ℕ)
  | cleanup (nowMs : ℕ) (scan : List (IterOrder × String))

inductive Reply where
  | decision (d : Decision)
  | settlement (s : Settlement)
  | orphaned (n : ℕ)
  deriving DecidableEq

def Reply.deniedFor (reason : DenialReason) : Reply → Prop
  | .decision (.denied _ r _) => r = reason
  | _ => False

instance (reason : DenialReason) : DecidablePred (Reply.deniedFor reason)
  | .decision (.denied _ r _) => inferInstanceAs (Decidable (r = reason))
  | .decision (.admitted _) => isFalse id
  | .settlement _ => isFalse id
  | .orphaned _ => isFalse id

def Call.nowMs : Call → ℕ
  | .reserve _ _ _ t => t
  | .reconcile _ _ _ t => t
  | .cleanup t _ => t

def step (L : Ledger σ) : Call → Ledger σ × Reply
  | .reserve o key estimate t => (reserve P B o L key estimate t).map id .decision
  | .reconcile o id actual t => (reconcile P o L id actual t).map (fun L => L) .settlement
  | .cleanup t scan => (cleanup P L t scan).map id .orphaned

variable {P} in
theorem touch_expired_of_inactive {s : σ} (h : P.active s = ∅) (o : IterOrder) (t : ℕ) :
    (P.touch o t s).2 = [] := by
  apply List.eq_nil_iff_forall_not_mem.mpr
  intro id hid
  have := (P.touch_expired o t s).2 id hid
  rw [h] at this
  exact AList.notMem_empty id this

/-- A property of key states, indexed by the time up to which it has been maintained,
that every operation on one key keeps. `ok` restricts the settlements. -/
structure KeyInvariant (J : ℕ → σ → Prop) (ok : ActiveReservation → ℕ → Prop) : Prop where
  fresh : ∀ t, J t P.fresh
  later : ∀ {t u s}, t ≤ u → J t s → J u s
  touch : ∀ {t s} o, J t s → J t (P.touch o t s).1
  hold : ∀ {t s} id estimate, J t s → (P.judge t estimate s).exhausted = none →
    J t (P.hold id ⟨estimate, t⟩ s)
  settle : ∀ {t s} o {id r actual}, J t s → (P.active s).lookup id = some r → ok r actual →
    J t (P.settle o t r actual (P.release id s)).1

def AllKeys (J : ℕ → σ → Prop) (t : ℕ) (L : Ledger σ) : Prop :=
  ∀ key s, L.keys.lookup key = some s → J t s

/-- The condition `ok` on the settlement a call is about to make, if it makes one. -/
def SettlesWith (ok : ActiveReservation → ℕ → Prop) (L : Ledger σ) : Call → Prop
  | .reconcile _ id actual _ => ∀ key s r, L.reservations.lookup id = some key →
      L.keys.lookup key = some s → (P.active s).lookup id = some r → ok r (actual.getD r.estimate)
  | _ => True

variable {P B} {J : ℕ → σ → Prop} {ok : ActiveReservation → ℕ → Prop}

theorem settlesWith_true (L : Ledger σ) (c : Call) : SettlesWith P (fun _ _ => True) L c := by
  cases c <;> simp [SettlesWith]

theorem AllKeys.insert {t : ℕ} {L L' : Ledger σ} (h : AllKeys J t L) {key : String} {s : σ}
    (hs : J t s) (hm : L'.keys = L.keys.insert key s) : AllKeys J t L' := by
  intro k u hu
  rw [hm] at hu
  by_cases hk : k = key
  · subst hk
    rw [AList.lookup_insert] at hu
    exact Option.some.inj hu ▸ hs
  · rw [AList.lookup_insert_ne hk] at hu
    exact h k u hu

theorem AllKeys.new (t : ℕ) : AllKeys J t (Ledger.new : Ledger σ) := by
  intro key s h
  simp [Ledger.new] at h

theorem KeyInvariant.entry (hJ : KeyInvariant P J ok) {t : ℕ} {L L' : Ledger σ} {key : String}
    {s : σ} (h : AllKeys J t L) (he : entry P B L key = some (L', s)) :
    AllKeys J t L' ∧ J t s := by
  unfold ReservationLedger.entry at he
  split at he
  · next s₀ hs₀ =>
    obtain ⟨rfl, rfl⟩ := Prod.mk.inj (Option.some.inj he)
    exact ⟨h, h _ _ hs₀⟩
  · split at he
    · obtain ⟨rfl, rfl⟩ := Prod.mk.inj (Option.some.inj he)
      exact ⟨h.insert (hJ.fresh t) rfl, hJ.fresh t⟩
    · cases he

theorem KeyInvariant.reserveLocked (hJ : KeyInvariant P J ok) {t : ℕ} {L : Ledger σ}
    {key : String} {s : σ} (o : IterOrder) (estimate : ℕ) (h : AllKeys J t L) (hs : J t s) :
    AllKeys J t (reserveLocked P B o L key s estimate t).1 := by
  have ht := hJ.touch o hs
  unfold ReservationLedger.reserveLocked
  dsimp only
  split
  · exact h.insert ht rfl
  · next hx =>
    split
    · exact h.insert (hJ.hold _ estimate ht hx) rfl
    · exact h.insert ht rfl

theorem KeyInvariant.reserve (hJ : KeyInvariant P J ok) {t : ℕ} {L : Ledger σ} (o : IterOrder)
    (key : String) (estimate : ℕ) (h : AllKeys J t L) :
    AllKeys J t (reserve P B o L key estimate t).1 := by
  unfold ReservationLedger.reserve
  split
  · exact h
  · split
    · exact h
    · next he =>
      obtain ⟨hL, hs⟩ := hJ.entry h he
      exact hJ.reserveLocked o estimate hL hs

theorem KeyInvariant.reconcile (hJ : KeyInvariant P J ok) {t : ℕ} {L : Ledger σ} (o : IterOrder)
    (id : ℕ) (actual : Option ℕ) (h : AllKeys J t L)
    (hok : SettlesWith P ok L (.reconcile o id actual t)) :
    AllKeys J t (reconcile P o L id actual t).1 := by
  unfold ReservationLedger.reconcile
  split
  · exact h
  · next key hkey =>
    dsimp only
    split
    · exact h
    · next s hs =>
      unfold reconcileLocked
      split
      · exact h
      · next r hr =>
        exact h.insert (hJ.settle o (h key s hs) hr (hok key s r hkey hs hr)) rfl

theorem KeyInvariant.cleanupKey (hJ : KeyInvariant P J ok) {t : ℕ} {L : Ledger σ} (o : IterOrder)
    (key : String) (h : AllKeys J t L) : AllKeys J t (cleanupKey P o L t key).1 := by
  unfold ReservationLedger.cleanupKey
  split
  · exact h
  · next s hs =>
    have hput : AllKeys J t ((L.forget (P.touch o t s).2).put key (P.touch o t s).1) :=
      h.insert (hJ.touch o (h key s hs)) rfl
    dsimp only
    split
    · intro k u hu
      by_cases hk : k = key
      · subst hk
        simp at hu
      · rw [AList.lookup_erase_ne hk] at hu
        exact hput k u hu
    · exact hput

theorem KeyInvariant.cleanup (hJ : KeyInvariant P J ok) {t : ℕ} {L : Ledger σ}
    (scan : List (IterOrder × String)) (h : AllKeys J t L) :
    AllKeys J t (cleanup P L t scan).1 := by
  induction scan generalizing L with
  | nil => exact h
  | cons e scan ih => exact ih (hJ.cleanupKey e.1 e.2 h)

theorem KeyInvariant.step (hJ : KeyInvariant P J ok) {t : ℕ} {L : Ledger σ} {c : Call}
    (h : AllKeys J t L) (ht : t ≤ c.nowMs) (hok : SettlesWith P ok L c) :
    AllKeys J c.nowMs (step P B L c).1 := by
  have hl : AllKeys J c.nowMs L := fun k s hs => hJ.later ht (h k s hs)
  cases c with
  | reserve o key estimate u => exact hJ.reserve o key estimate hl
  | reconcile o id actual u => exact hJ.reconcile o id actual hl hok
  | cleanup u scan => exact hJ.cleanup scan hl

/-- An invariant of one key's operations holds for every key after every run. -/
theorem KeyInvariant.run (hJ : KeyInvariant P J ok) {calls : List Call}
    (ho : TimedRuns.Ordered Call.nowMs 0 calls)
    (hok : TimedRuns.Along (ReservationLedger.step P B) (SettlesWith P ok) Ledger.new calls) :
    AllKeys J (TimedRuns.lastTime Call.nowMs 0 calls)
      (TimedRuns.final (ReservationLedger.step P B) Ledger.new calls) :=
  TimedRuns.invariant_final (I := AllKeys J) (fun _ _ _ h ht hc => hJ.step h ht hc)
    (AllKeys.new 0) ho hok

end ReservationLedger
