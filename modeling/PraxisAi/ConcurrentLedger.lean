import PraxisAi.SlidingWindowLedger

/-! # The reservation ledger under concurrent calls

Any number of calls are in flight. A step is one locked section or one operation on a
shared map, and steps interleave freely. A key's entry is an `Arc`, here an address: a call
that cloned one keeps it when the key is removed, and would then read and write a detached
state. `admitted`, `applied` and `reaped` are ghost records of what became of each id. -/
namespace ConcurrentLedger

open List hiding erase_of_not_mem
open KeyedMaps ReservationLedger

/-- A call in flight, by what it does next. `inserting` is a reserve that has counted its
reservation and still holds the key's lock; `settling` is a reconcile holding its `Arc`. -/
inductive Thread where
  | reserve (key : String) (estimate nowMs : ℕ)
  | inserting (key : String) (addr estimate nowMs usageAfter remaining : ℕ)
  | reconcile (id : ℕ) (actual : Option ℕ) (nowMs : ℕ)
  | found (id : ℕ) (key : String) (actual : Option ℕ) (nowMs : ℕ)
  | settling (id : ℕ) (key : String) (addr : ℕ) (actual : Option ℕ) (nowMs : ℕ)
  | cleanup (nowMs : ℕ) (scan : List String) (orphaned : ℕ)
  | sweeping (nowMs : ℕ) (key : String) (addr : ℕ) (scan : List String) (orphaned : ℕ)
  | returned (reply : Reply)

def Thread.Starts : Thread → Prop
  | .reserve _ _ _ => True
  | .reconcile _ _ _ => True
  | .cleanup _ _ orphaned => orphaned = 0
  | _ => False

/-- Whether the call is between its counter increment and its insertion. -/
def Thread.counted : Thread → ℕ
  | .inserting _ _ _ _ _ _ => 1
  | _ => 0

structure Slot (σ : Type) where
  addr : ℕ
  state : σ

structure World (σ : Type) where
  keys : KeyedMap String (Slot σ)
  detached : KeyedMap ℕ σ
  nextAddr : ℕ
  reservations : KeyedMap ℕ String
  nextId : ℕ
  keyCount : ℤ
  activeReservations : ℤ
  threads : KeyedMap ℕ Thread
  admitted : List ℕ
  applied : List ℕ
  reaped : List ℕ

def World.new {σ : Type} : World σ := ⟨∅, ∅, 0, ∅, 1, 0, 0, ∅, [], [], []⟩

variable {σ : Type} (P : KeyPolicy σ) (B : Bounds)

def ids (slot : Slot σ) : List ℕ := (P.active slot.state).keys

def World.activeIds (w : World σ) : List ℕ := collect (ids P) w.keys

def World.counted (w : World σ) : ℕ := sumBy Thread.counted w.threads

def World.run (w : World σ) (tid : ℕ) (next : Thread) : World σ :=
  { w with threads := w.threads.insert tid next }

def World.deref (w : World σ) (key : String) (addr : ℕ) : Option σ :=
  match w.keys.lookup key with
  | some slot => if slot.addr = addr then some slot.state else w.detached.lookup addr
  | none => w.detached.lookup addr

def World.write (w : World σ) (key : String) (addr : ℕ) (s : σ) : World σ :=
  match w.keys.lookup key with
  | some slot =>
    if slot.addr = addr then { w with keys := w.keys.insert key ⟨addr, s⟩ }
    else { w with detached := w.detached.insert addr s }
  | none => { w with detached := w.detached.insert addr s }

def World.forget (w : World σ) (expired : List ℕ) : World σ :=
  { w with
    reservations := eraseAll expired w.reservations
    activeReservations := w.activeReservations - expired.length
    reaped := expired ++ w.reaped }

/-- A reserve between counting and inserting holds this state's lock and the key's entry. -/
def World.Locked (w : World σ) (addr : ℕ) : Prop :=
  ∃ tid key estimate nowMs usageAfter remaining,
    w.threads.lookup tid = some (.inserting key addr estimate nowMs usageAfter remaining)

def World.reap (w : World σ) (key : String) (slot : Slot σ) (o : IterOrder) (nowMs : ℕ) :
    World σ :=
  (w.forget (P.touch o nowMs slot.state).2).write key slot.addr (P.touch o nowMs slot.state).1

inductive Step : World σ → World σ → Prop where
  | call {w : World σ} {tid c} (fresh : w.threads.lookup tid = none) (starts : c.Starts) :
    Step w (w.run tid c)
  | invalidKey {w : World σ} {tid key estimate t}
    (pc : w.threads.lookup tid = some (.reserve key estimate t)) (bad : InvalidKey B key estimate) :
    Step w (w.run tid (.returned (.decision (.denied 0 .invalidKey 0))))
  | createKey {w : World σ} {tid key estimate t}
    (pc : w.threads.lookup tid = some (.reserve key estimate t))
    (good : ¬ InvalidKey B key estimate) (vacant : w.keys.lookup key = none)
    (room : w.keyCount < B.maxKeys) :
    Step w { w with
      keys := w.keys.insert key ⟨w.nextAddr, P.fresh⟩
      nextAddr := w.nextAddr + 1
      keyCount := w.keyCount + 1 }
  | keysFull {w : World σ} {tid key estimate t}
    (pc : w.threads.lookup tid = some (.reserve key estimate t))
    (good : ¬ InvalidKey B key estimate) (vacant : w.keys.lookup key = none)
    (full : ¬ w.keyCount < B.maxKeys) :
    Step w (w.run tid (.returned (.decision (.denied 0 .keyCapacity 0))))
  | exhausted {w : World σ} {tid key estimate t slot o retry}
    (pc : w.threads.lookup tid = some (.reserve key estimate t))
    (good : ¬ InvalidKey B key estimate) (entry : w.keys.lookup key = some slot)
    (free : ¬ w.Locked slot.addr)
    (judged : (P.judge t estimate (P.touch o t slot.state).1).exhausted = some retry) :
    Step w ((w.reap P key slot o t).run tid (.returned (.decision (.denied retry .windowCapacity
      (P.judge t estimate (P.touch o t slot.state).1).remaining))))
  | activeFull {w : World σ} {tid key estimate t slot o}
    (pc : w.threads.lookup tid = some (.reserve key estimate t))
    (good : ¬ InvalidKey B key estimate) (entry : w.keys.lookup key = some slot)
    (free : ¬ w.Locked slot.addr)
    (judged : (P.judge t estimate (P.touch o t slot.state).1).exhausted = none)
    (full : ¬ (w.reap P key slot o t).activeReservations < B.maxActiveReservations) :
    Step w ((w.reap P key slot o t).run tid (.returned (.decision (.denied
      B.reservationTimeoutMs .reservationCapacity
      (P.judge t estimate (P.touch o t slot.state).1).remaining))))
  | count {w : World σ} {tid key estimate t slot o}
    (pc : w.threads.lookup tid = some (.reserve key estimate t))
    (good : ¬ InvalidKey B key estimate) (entry : w.keys.lookup key = some slot)
    (free : ¬ w.Locked slot.addr)
    (judged : (P.judge t estimate (P.touch o t slot.state).1).exhausted = none)
    (room : (w.reap P key slot o t).activeReservations < B.maxActiveReservations) :
    Step w ({ w.reap P key slot o t with
        activeReservations := (w.reap P key slot o t).activeReservations + 1 }.run tid
      (.inserting key slot.addr estimate t
        (P.judge t estimate (P.touch o t slot.state).1).usageAfter
        (P.judge t estimate (P.touch o t slot.state).1).remainingAfter))
  | insert {w : World σ} {tid key addr estimate t usageAfter remaining s}
    (pc : w.threads.lookup tid = some (.inserting key addr estimate t usageAfter remaining))
    (held : w.deref key addr = some s) :
    Step w (({ w with
        reservations := w.reservations.insert w.nextId key
        nextId := w.nextId + 1
        admitted := w.nextId :: w.admitted }.write key addr
          (P.hold w.nextId ⟨estimate, t⟩ s)).run tid
      (.returned (.decision (.admitted ⟨w.nextId, estimate, t, usageAfter, remaining⟩))))
  | unknownId {w : World σ} {tid id actual t}
    (pc : w.threads.lookup tid = some (.reconcile id actual t))
    (unknown : w.reservations.lookup id = none) :
    Step w (w.run tid (.returned (.settlement .noop)))
  | takeId {w : World σ} {tid id actual t key}
    (pc : w.threads.lookup tid = some (.reconcile id actual t))
    (known : w.reservations.lookup id = some key) :
    Step w ({ w with reservations := w.reservations.erase id }.run tid (.found id key actual t))
  | keyGone {w : World σ} {tid id key actual t}
    (pc : w.threads.lookup tid = some (.found id key actual t))
    (gone : w.keys.lookup key = none) :
    Step w (w.run tid (.returned (.settlement .noop)))
  | cloneArc {w : World σ} {tid id key actual t slot}
    (pc : w.threads.lookup tid = some (.found id key actual t))
    (entry : w.keys.lookup key = some slot) :
    Step w (w.run tid (.settling id key slot.addr actual t))
  | tooLate {w : World σ} {tid id key addr actual t s}
    (pc : w.threads.lookup tid = some (.settling id key addr actual t))
    (held : w.deref key addr = some s) (free : ¬ w.Locked addr)
    (reaped : (P.active s).lookup id = none) :
    Step w (w.run tid (.returned (.settlement .noop)))
  | settle {w : World σ} {tid id key addr actual t s r o}
    (pc : w.threads.lookup tid = some (.settling id key addr actual t))
    (held : w.deref key addr = some s) (free : ¬ w.Locked addr)
    (active : (P.active s).lookup id = some r) :
    Step w ((({ w with
        activeReservations := w.activeReservations - 1
        applied := id :: w.applied }.forget
          (P.settle o t r (actual.getD r.estimate) (P.release id s)).2).write key addr
            (P.settle o t r (actual.getD r.estimate) (P.release id s)).1).run tid
      (.returned (.settlement (.applied (actual.getD r.estimate)
        (r.estimate - actual.getD r.estimate) (actual.getD r.estimate - r.estimate)))))
  | scanned {w : World σ} {tid t orphaned}
    (pc : w.threads.lookup tid = some (.cleanup t [] orphaned)) :
    Step w (w.run tid (.returned (.orphaned orphaned)))
  | skip {w : World σ} {tid t key scan orphaned}
    (pc : w.threads.lookup tid = some (.cleanup t (key :: scan) orphaned))
    (gone : w.keys.lookup key = none) :
    Step w (w.run tid (.cleanup t scan orphaned))
  | sweep {w : World σ} {tid t key scan orphaned slot o}
    (pc : w.threads.lookup tid = some (.cleanup t (key :: scan) orphaned))
    (entry : w.keys.lookup key = some slot) (free : ¬ w.Locked slot.addr) :
    Step w ((w.reap P key slot o t).run tid
      (if P.isEmpty (P.touch o t slot.state).1 then
        .sweeping t key slot.addr scan (orphaned + (P.touch o t slot.state).2.length)
      else .cleanup t scan (orphaned + (P.touch o t slot.state).2.length)))
  | evict {w : World σ} {tid t key addr scan orphaned slot}
    (pc : w.threads.lookup tid = some (.sweeping t key addr scan orphaned))
    (entry : w.keys.lookup key = some slot) (same : slot.addr = addr)
    (free : ¬ w.Locked addr) (empty : P.isEmpty slot.state = true) :
    Step w ({ w with
        keys := w.keys.erase key
        detached := w.detached.insert addr slot.state
        keyCount := w.keyCount - 1 }.run tid (.cleanup t scan orphaned))
  | keep {w : World σ} {tid t key addr scan orphaned}
    (pc : w.threads.lookup tid = some (.sweeping t key addr scan orphaned))
    (other : ∀ slot, w.keys.lookup key = some slot →
      ¬ (slot.addr = addr ∧ P.isEmpty slot.state = true)) :
    Step w (w.run tid (.cleanup t scan orphaned))

inductive Reachable : World σ → Prop where
  | new : Reachable World.new
  | step {w w'} : Reachable w → Step P B w w' → Reachable w'

/-- Every admitted id is accounted for once: applied, reaped or still active. -/
structure Accounts (w : World σ) : Prop where
  once : ∀ id, w.admitted.count id =
    w.applied.count id + w.reaped.count id + (w.activeIds P).count id
  distinct : ∀ id, w.admitted.count id ≤ if id < w.nextId then 1 else 0
  counter : w.activeReservations = (w.activeIds P).length + w.counted
  bounded : w.activeReservations ≤ B.maxActiveReservations

/-- What holds of the keys and the `Arc`s cloned from them. -/
structure Arcs (w : World σ) : Prop where
  keyCount : w.keyCount = w.keys.keys.length
  keysBounded : w.keyCount ≤ B.maxKeys
  attached : ∀ key slot, w.keys.lookup key = some slot →
    slot.addr < w.nextAddr ∧ w.detached.lookup slot.addr = none
  distinct : ∀ key key' slot slot', w.keys.lookup key = some slot →
    w.keys.lookup key' = some slot' → slot.addr = slot'.addr → key = key'
  idle : ∀ addr s, w.detached.lookup addr = some s → addr < w.nextAddr ∧ P.active s = ∅
  held : ∀ tid key addr estimate t usageAfter remaining,
    w.threads.lookup tid = some (.inserting key addr estimate t usageAfter remaining) →
    ∃ s, w.keys.lookup key = some ⟨addr, s⟩

variable {P B} {w w' : World σ}

theorem write_attached {key : String} {slot : Slot σ} (h : w.keys.lookup key = some slot)
    (s : σ) :
    w.write key slot.addr s = { w with keys := w.keys.insert key ⟨slot.addr, s⟩ } := by
  simp [World.write, h]

theorem reap_attached {key : String} {slot : Slot σ} (h : w.keys.lookup key = some slot)
    (o : IterOrder) (t : ℕ) :
    w.reap P key slot o t =
      { w.forget (P.touch o t slot.state).2 with
        keys := w.keys.insert key ⟨slot.addr, (P.touch o t slot.state).1⟩ } := by
  have hf : (w.forget (P.touch o t slot.state).2).keys.lookup key = some slot := h
  rw [World.reap, write_attached hf]
  rfl

theorem counted_run {tid : ℕ} {c : Thread} (h : w.threads.lookup tid = some c)
    (next : Thread) :
    (w.run tid next).counted + c.counted = w.counted + next.counted := by
  have herase := sumBy_erase Thread.counted h
  simp only [World.counted, World.run, sumBy_insert]
  omega

theorem not_locked (h : w.counted = 0) (addr : ℕ) : ¬w.Locked addr := by
  rintro ⟨tid, key, estimate, nowMs, usageAfter, remaining, hpc⟩
  have hsum := sumBy_erase Thread.counted hpc
  simp only [World.counted, Thread.counted] at h hsum
  omega

theorem counted_call {tid : ℕ} {c : Thread} (h : w.threads.lookup tid = none)
    (hc : c.Starts) : (w.run tid c).counted = w.counted := by
  have hzero : c.counted = 0 := by
    cases c <;> first | rfl | exact absurd hc id
  have hgone := erase_of_not_mem (lookup_eq_none_iff.mp h)
  simp only [World.counted, World.run, sumBy_insert, hgone, hzero, Nat.zero_add]

theorem ids_touch (o : IterOrder) (t : ℕ) (slot : Slot σ) :
    (ids P slot ++ []).Perm
      (ids P ⟨slot.addr, (P.touch o t slot.state).1⟩ ++ (P.touch o t slot.state).2) := by
  obtain ⟨hn, hm⟩ := P.touch_expired o t slot.state
  have hperm := keys_perm_eraseAll hn hm
  rw [← P.active_touch] at hperm
  rw [append_nil]
  exact hperm.trans perm_append_comm

theorem ids_hold {slot : Slot σ} {id : ℕ} (h : id ∉ ids P slot) (r : ActiveReservation) :
    (ids P slot ++ [id]).Perm (ids P ⟨slot.addr, P.hold id r slot.state⟩ ++ []) := by
  have hkeys : ids P ⟨slot.addr, P.hold id r slot.state⟩ = id :: ids P slot := by
    simp only [ids, P.active_hold, AList.keys_insert]
    exact congrArg (id :: ·) (List.erase_of_not_mem h)
  rw [hkeys, append_nil]
  exact perm_append_comm

theorem ids_settle {slot : Slot σ} {id : ℕ} {r : ActiveReservation}
    (h : (P.active slot.state).lookup id = some r) (o : IterOrder) (t actual : ℕ) :
    (ids P slot ++ []).Perm
      (ids P ⟨slot.addr, (P.settle o t r actual (P.release id slot.state)).1⟩ ++
        ([id] ++ (P.settle o t r actual (P.release id slot.state)).2)) := by
  obtain ⟨hn, hm⟩ := P.settle_expired o t r actual (P.release id slot.state)
  have hperm := keys_perm_eraseAll hn hm
  rw [← P.active_settle, P.active_release, AList.keys_erase] at hperm
  have hid : id ∈ (P.active slot.state).keys := AList.mem_keys.mp (mem_of_lookup h)
  rw [append_nil]
  exact ((perm_cons_erase hid).trans (hperm.cons id)).trans
    (perm_append_comm : ([id] ++ _ ++ _).Perm _)

theorem Accounts.change (h : Accounts P B w) (gained applied reaped : List ℕ)
    (hids : (w.activeIds P ++ gained).Perm (w'.activeIds P ++ (applied ++ reaped)))
    (hadmitted : w'.admitted = gained ++ w.admitted)
    (happlied : w'.applied = applied ++ w.applied) (hreaped : w'.reaped = reaped ++ w.reaped)
    (hnew : gained = [] ∧ w'.nextId = w.nextId ∨
      gained = [w.nextId] ∧ w'.nextId = w.nextId + 1)
    (hcounter : w'.activeReservations + applied.length + reaped.length + w.counted =
      w.activeReservations + gained.length + w'.counted)
    (hbound : w'.activeReservations ≤ B.maxActiveReservations) : Accounts P B w' := by
  have hlen := hids.length_eq
  simp only [length_append] at hlen
  have hc := h.counter
  refine ⟨fun id => ?_, fun id => ?_, by omega, hbound⟩
  · have hcount := hids.count_eq id
    have := h.once id
    simp only [hadmitted, happlied, hreaped, count_append] at *
    omega
  · have := h.distinct id
    rw [hadmitted, count_append]
    rcases hnew with ⟨rfl, hid⟩ | ⟨rfl, hid⟩
    · simpa [hid] using this
    · simp only [hid, count_singleton, beq_iff_eq]
      split_ifs at * <;> omega

theorem Accounts.run (h : Accounts P B w) {tid : ℕ} {c next : Thread}
    (hpc : w.threads.lookup tid = some c) (hc : c.counted = 0) (hnext : next.counted = 0) :
    Accounts P B (w.run tid next) := by
  have hcounted := counted_run hpc next
  refine h.change [] [] [] (by rfl) rfl rfl rfl
    (.inl ⟨rfl, rfl⟩) ?_ h.bounded
  simp only [World.run, length_nil] at *
  omega

theorem Accounts.reap (h : Accounts P B w) {tid : ℕ} {c next : Thread} {key : String}
    {slot : Slot σ} {o : IterOrder} {t : ℕ} (hpc : w.threads.lookup tid = some c)
    (hc : c.counted = 0) (hentry : w.keys.lookup key = some slot) (hnext : next.counted = 0) :
    Accounts P B ((w.reap P key slot o t).run tid next) := by
  have hids := collect_replace hentry (ids_touch (P := P) o t slot)
  have hcounted := counted_run hpc next
  have hbound := h.bounded
  rw [reap_attached hentry]
  refine h.change [] [] (P.touch o t slot.state).2 hids rfl rfl rfl
    (.inl ⟨rfl, rfl⟩) ?_ ?_
  all_goals
    simp only [World.run, World.forget, World.counted, length_nil] at *
    omega

theorem Accounts.count (h : Accounts P B w) {tid : ℕ} {c next : Thread} {key : String}
    {slot : Slot σ} {o : IterOrder} {t : ℕ} (hpc : w.threads.lookup tid = some c)
    (hc : c.counted = 0) (hentry : w.keys.lookup key = some slot) (hnext : next.counted = 1)
    (hroom : (w.reap P key slot o t).activeReservations < B.maxActiveReservations) :
    Accounts P B ({ w.reap P key slot o t with
      activeReservations := (w.reap P key slot o t).activeReservations + 1 }.run tid next) := by
  have hids := collect_replace hentry (ids_touch (P := P) o t slot)
  have hcounted := counted_run hpc next
  rw [reap_attached hentry] at *
  refine h.change [] [] (P.touch o t slot.state).2 hids rfl rfl rfl
    (.inl ⟨rfl, rfl⟩) ?_ ?_
  all_goals
    simp only [World.run, World.forget, World.counted, length_nil] at *
    omega

theorem Accounts.notMem_activeIds (h : Accounts P B w) : w.nextId ∉ w.activeIds P := by
  intro hmem
  have honce := h.once w.nextId
  have hdistinct := h.distinct w.nextId
  have := count_pos_iff.mpr hmem
  simp at hdistinct
  omega

theorem deref_attached {key : String} {slot : Slot σ} (h : w.keys.lookup key = some slot) :
    w.deref key slot.addr = some slot.state := by
  simp [World.deref, h]

/-- An `Arc` whose state still has active reservations is the one in the map. -/
theorem Arcs.attached_of_active (h : Arcs P B w) {key : String} {addr : ℕ} {s : σ}
    (hs : w.deref key addr = some s) (hactive : P.active s ≠ ∅) :
    w.keys.lookup key = some ⟨addr, s⟩ := by
  have hgone : w.detached.lookup addr ≠ some s := fun hd => hactive (h.idle addr s hd).2
  rcases hslot : w.keys.lookup key with _ | slot
  · simp only [World.deref, hslot] at hs
    exact absurd hs hgone
  · simp only [World.deref, hslot] at hs
    by_cases haddr : slot.addr = addr
    · simp only [haddr, if_true, Option.some.injEq] at hs
      subst haddr hs
      rfl
    · simp only [haddr, if_false] at hs
      exact absurd hs hgone

theorem Accounts.insert (h : Accounts P B w) {tid : ℕ} {c next : Thread} {key : String}
    {slot : Slot σ} {r : ActiveReservation} (hpc : w.threads.lookup tid = some c)
    (hc : c.counted = 1) (hentry : w.keys.lookup key = some slot) (hnext : next.counted = 0) :
    Accounts P B (({ w with
        reservations := w.reservations.insert w.nextId key
        nextId := w.nextId + 1
        admitted := w.nextId :: w.admitted }.write key slot.addr
          (P.hold w.nextId r slot.state)).run tid next) := by
  have hnew : w.nextId ∉ ids P slot := fun hmem =>
    h.notMem_activeIds (mem_collect.mpr ⟨key, slot, hentry, hmem⟩)
  have hids := collect_replace hentry (ids_hold hnew r)
  have hcounted := counted_run hpc next
  simp only [World.write, hentry, if_true]
  refine h.change [w.nextId] [] [] hids rfl rfl rfl
    (.inr ⟨rfl, rfl⟩) ?_ h.bounded
  simp only [World.run, World.counted, length_nil, length_singleton] at *
  omega

theorem Accounts.settle (h : Accounts P B w) {tid id : ℕ} {c next : Thread} {key : String}
    {slot : Slot σ} {r : ActiveReservation} {o : IterOrder} {t actual : ℕ}
    (hpc : w.threads.lookup tid = some c) (hc : c.counted = 0)
    (hentry : w.keys.lookup key = some slot)
    (hactive : (P.active slot.state).lookup id = some r) (hnext : next.counted = 0) :
    Accounts P B ((({ w with
        activeReservations := w.activeReservations - 1
        applied := id :: w.applied }.forget
          (P.settle o t r actual (P.release id slot.state)).2).write key slot.addr
            (P.settle o t r actual (P.release id slot.state)).1).run tid next) := by
  have hids := collect_replace hentry (ids_settle hactive o t actual)
  have hcounted := counted_run hpc next
  have hbound := h.bounded
  simp only [World.write, World.forget, hentry, if_true]
  refine h.change [] [id] (P.settle o t r actual (P.release id slot.state)).2 hids rfl rfl rfl
    (.inl ⟨rfl, rfl⟩) ?_ ?_
  all_goals
    simp only [World.run, World.counted, length_nil, length_singleton] at *
    omega

theorem accounts_step (ha : Arcs P B w) (h : Accounts P B w) (step : Step P B w w') :
    Accounts P B w' := by
  cases step with
  | call fresh starts =>
    refine h.change [] [] [] (by rfl) rfl rfl rfl
      (.inl ⟨rfl, rfl⟩) ?_ h.bounded
    rw [counted_call fresh starts]
    simp [World.run]
  | invalidKey pc => exact h.run pc rfl rfl
  | createKey pc good vacant room =>
    refine h.change [] [] [] ?_ rfl rfl rfl
      (.inl ⟨rfl, rfl⟩) ?_ h.bounded
    · have hgone := erase_of_not_mem (lookup_eq_none_iff.mp vacant)
      have hfresh : ids P ⟨w.nextAddr, P.fresh⟩ = [] := by
        simp only [ids, P.active_fresh]
        rfl
      simp only [World.activeIds, collect_insert, hgone, hfresh, nil_append]
      rfl
    · simp [World.counted]
  | keysFull pc => exact h.run pc rfl rfl
  | exhausted pc good entry => exact h.reap pc rfl entry rfl
  | activeFull pc good entry => exact h.reap pc rfl entry rfl
  | count pc good entry free judged room => exact h.count pc rfl entry rfl room
  | insert pc held =>
    obtain ⟨s, hentry⟩ := ha.held _ _ _ _ _ _ _ pc
    have hs := deref_attached hentry
    simp only [held, Option.some.injEq] at hs
    subst hs
    exact h.insert pc rfl hentry rfl
  | unknownId pc => exact h.run pc rfl rfl
  | @takeId tid id actual t key pc known =>
    have hrun : Accounts P B (w.run tid (.found id key actual t)) := h.run pc rfl rfl
    exact ⟨hrun.once, hrun.distinct, hrun.counter, hrun.bounded⟩
  | keyGone pc => exact h.run pc rfl rfl
  | cloneArc pc => exact h.run pc rfl rfl
  | tooLate pc => exact h.run pc rfl rfl
  | @settle tid id key addr actual t s r o pc held free active =>
    have hne : P.active s ≠ ∅ := fun he => by simp [he] at active
    exact h.settle pc rfl (ha.attached_of_active held hne) active rfl
  | scanned pc => exact h.run pc rfl rfl
  | skip pc => exact h.run pc rfl rfl
  | sweep pc entry =>
    refine h.reap pc rfl entry ?_
    split <;> rfl
  | @evict tid t key addr scan orphaned slot pc entry same free empty =>
    have hempty : ids P slot = [] := congrArg AList.keys (P.active_of_isEmpty _ empty)
    have hcounted := counted_run pc (.cleanup t scan orphaned)
    have hids := collect_erase (ids P) entry
    rw [hempty, nil_append] at hids
    refine h.change [] [] [] ?_ rfl rfl rfl
      (.inl ⟨rfl, rfl⟩) ?_ h.bounded
    · rw [append_nil, append_nil, append_nil]
      exact hids
    · simp only [World.run, World.counted, Thread.counted, length_nil] at *
      omega
  | keep pc => exact h.run pc rfl rfl

theorem Arcs.run_to (h : Arcs P B w) (tid : ℕ) {next : Thread}
    (hnext : ∀ key addr estimate t usageAfter remaining,
      next = .inserting key addr estimate t usageAfter remaining →
      ∃ s, w.keys.lookup key = some ⟨addr, s⟩) : Arcs P B (w.run tid next) := by
  refine ⟨h.keyCount, h.keysBounded, h.attached, h.distinct, h.idle, ?_⟩
  intro tid' key addr estimate t usageAfter remaining hpc
  by_cases htid : tid' = tid
  · subst htid
    rw [World.run, AList.lookup_insert, Option.some.injEq] at hpc
    exact hnext key addr estimate t usageAfter remaining hpc
  · rw [World.run, AList.lookup_insert_ne htid] at hpc
    exact h.held tid' key addr estimate t usageAfter remaining hpc

theorem Arcs.run (h : Arcs P B w) (tid : ℕ) {next : Thread} (hnext : next.counted = 0) :
    Arcs P B (w.run tid next) := by
  apply h.run_to tid
  intro key addr estimate t usageAfter remaining heq
  rw [heq] at hnext
  cases hnext

theorem Arcs.put (h : Arcs P B w) {key : String} {slot : Slot σ} {s : σ}
    (hentry : w.keys.lookup key = some slot)
    (hkeys : w'.keys = w.keys.insert key ⟨slot.addr, s⟩) (hdetached : w'.detached = w.detached)
    (haddr : w'.nextAddr = w.nextAddr) (hcount : w'.keyCount = w.keyCount)
    (hthreads : w'.threads = w.threads) : Arcs P B w' := by
  have hlookup : ∀ k slot', w'.keys.lookup k = some slot' →
      ∃ s₀, w.keys.lookup k = some ⟨slot'.addr, s₀⟩ := by
    intro k slot' hk
    rw [hkeys] at hk
    by_cases hkey : k = key
    · subst hkey
      rw [AList.lookup_insert, Option.some.injEq] at hk
      subst hk
      exact ⟨slot.state, hentry⟩
    · rw [AList.lookup_insert_ne hkey] at hk
      exact ⟨slot'.state, hk⟩
  constructor
  · have hlen : w'.keys.keys.length = w.keys.keys.length := by
      have hmem := AList.mem_keys.mp (mem_of_lookup hentry)
      rw [hkeys, AList.keys_insert, length_cons, length_erase_of_mem hmem]
      have := length_pos_of_mem hmem
      omega
    rw [hcount, hlen]
    exact h.keyCount
  · rw [hcount]
    exact h.keysBounded
  · intro k slot' hk
    obtain ⟨s₀, hs₀⟩ := hlookup k slot' hk
    have hattached := h.attached k _ hs₀
    rw [haddr, hdetached]
    exact hattached
  · intro k k' slot₁ slot₂ hk hk' heq
    obtain ⟨s₁, hs₁⟩ := hlookup k slot₁ hk
    obtain ⟨s₂, hs₂⟩ := hlookup k' slot₂ hk'
    exact h.distinct k k' _ _ hs₁ hs₂ heq
  · rw [haddr, hdetached]
    exact h.idle
  · intro tid k addr estimate t usageAfter remaining hpc
    rw [hthreads] at hpc
    obtain ⟨s₀, hs₀⟩ := h.held tid k addr estimate t usageAfter remaining hpc
    rw [hkeys]
    by_cases hkey : k = key
    · subst hkey
      rw [hentry, Option.some.injEq] at hs₀
      subst hs₀
      exact ⟨s, AList.lookup_insert _⟩
    · rw [AList.lookup_insert_ne hkey]
      exact ⟨s₀, hs₀⟩

theorem Arcs.reap (h : Arcs P B w) {key : String} {slot : Slot σ} (o : IterOrder) (t : ℕ)
    (hentry : w.keys.lookup key = some slot) : Arcs P B (w.reap P key slot o t) := by
  rw [reap_attached hentry]
  exact h.put hentry rfl rfl rfl rfl rfl

theorem Arcs.create (h : Arcs P B w) {key : String} (vacant : w.keys.lookup key = none)
    (room : w.keyCount < B.maxKeys) :
    Arcs P B { w with
      keys := w.keys.insert key ⟨w.nextAddr, P.fresh⟩
      nextAddr := w.nextAddr + 1
      keyCount := w.keyCount + 1 } := by
  have hlookup : ∀ k slot, (w.keys.insert key ⟨w.nextAddr, P.fresh⟩).lookup k = some slot →
      k = key ∧ slot.addr = w.nextAddr ∨ w.keys.lookup k = some slot := by
    intro k slot hk
    by_cases hkey : k = key
    · subst hkey
      rw [AList.lookup_insert, Option.some.injEq] at hk
      subst hk
      exact .inl ⟨rfl, rfl⟩
    · rw [AList.lookup_insert_ne hkey] at hk
      exact .inr hk
  have hunused : w.detached.lookup w.nextAddr = none := by
    rcases hd : w.detached.lookup w.nextAddr with _ | s
    · rfl
    · exact absurd (h.idle _ s hd).1 (lt_irrefl _)
  constructor
  · have := h.keyCount
    rw [keys_length_insert _ _ (lookup_eq_none_iff.mp vacant)]
    dsimp only
    omega
  · exact Int.add_one_le_iff.mpr room
  · intro k slot hk
    rcases hlookup k slot hk with ⟨-, haddr⟩ | hold
    · rw [haddr]
      exact ⟨Nat.lt_succ_self _, hunused⟩
    · obtain ⟨hlt, hnone⟩ := h.attached k slot hold
      exact ⟨Nat.lt_succ_of_lt hlt, hnone⟩
  · intro k k' slot slot' hk hk' heq
    rcases hlookup k slot hk with ⟨rfl, haddr⟩ | hold
    · rcases hlookup k' slot' hk' with ⟨rfl, -⟩ | hold'
      · rfl
      · have := (h.attached k' slot' hold').1
        omega
    · rcases hlookup k' slot' hk' with ⟨rfl, haddr'⟩ | hold'
      · have := (h.attached k slot hold).1
        omega
      · exact h.distinct k k' slot slot' hold hold' heq
  · intro addr s hs
    obtain ⟨hlt, hidle⟩ := h.idle addr s hs
    exact ⟨Nat.lt_succ_of_lt hlt, hidle⟩
  · intro tid k addr estimate t usageAfter remaining hpc
    obtain ⟨s, hs⟩ := h.held tid k addr estimate t usageAfter remaining hpc
    have hkey : k ≠ key := by
      rintro rfl
      rw [vacant] at hs
      cases hs
    exact ⟨s, by rw [AList.lookup_insert_ne hkey]; exact hs⟩

theorem Arcs.evict (h : Arcs P B w) {key : String} {slot : Slot σ}
    (hentry : w.keys.lookup key = some slot) (free : ¬ w.Locked slot.addr)
    (empty : P.isEmpty slot.state = true) :
    Arcs P B { w with
      keys := w.keys.erase key
      detached := w.detached.insert slot.addr slot.state
      keyCount := w.keyCount - 1 } := by
  have hlookup : ∀ k slot', (w.keys.erase key).lookup k = some slot' →
      k ≠ key ∧ w.keys.lookup k = some slot' := by
    intro k slot' hk
    by_cases hkey : k = key
    · subst hkey
      rw [AList.lookup_erase] at hk
      cases hk
    · rw [AList.lookup_erase_ne hkey] at hk
      exact ⟨hkey, hk⟩
  constructor
  · have hlen := keys_length_erase (mem_of_lookup hentry)
    have := h.keyCount
    dsimp only
    omega
  · have := h.keysBounded
    dsimp only
    omega
  · intro k slot' hk
    obtain ⟨hne, hk⟩ := hlookup k slot' hk
    obtain ⟨hlt, hnone⟩ := h.attached k slot' hk
    have haddr : slot'.addr ≠ slot.addr := fun heq => hne (h.distinct k key _ _ hk hentry heq)
    exact ⟨hlt, by rw [AList.lookup_insert_ne haddr]; exact hnone⟩
  · intro k k' slot₁ slot₂ hk hk'
    exact h.distinct k k' _ _ (hlookup k _ hk).2 (hlookup k' _ hk').2
  · intro addr s hs
    by_cases haddr : addr = slot.addr
    · subst haddr
      rw [AList.lookup_insert, Option.some.injEq] at hs
      subst hs
      exact ⟨(h.attached key slot hentry).1, P.active_of_isEmpty _ empty⟩
    · rw [AList.lookup_insert_ne haddr] at hs
      exact h.idle addr s hs
  · intro tid k addr estimate t usageAfter remaining hpc
    obtain ⟨s, hs⟩ := h.held tid k addr estimate t usageAfter remaining hpc
    have hkey : k ≠ key := by
      rintro rfl
      rw [hentry, Option.some.injEq] at hs
      subst hs
      exact free ⟨tid, k, estimate, t, usageAfter, remaining, hpc⟩
    exact ⟨s, by rw [AList.lookup_erase_ne hkey]; exact hs⟩

theorem arcs_step (h : Arcs P B w) (step : Step P B w w') : Arcs P B w' := by
  cases step with
  | call fresh starts =>
    apply h.run_to
    rintro key addr estimate t usageAfter remaining rfl
    cases starts
  | invalidKey => exact h.run _ rfl
  | createKey pc good vacant room => exact h.create vacant room
  | keysFull => exact h.run _ rfl
  | exhausted pc good entry => exact (h.reap _ _ entry).run _ rfl
  | activeFull pc good entry => exact (h.reap _ _ entry).run _ rfl
  | @count tid key estimate t slot o pc good entry =>
    rw [reap_attached entry]
    refine Arcs.run_to ?_ tid ?_
    · exact h.put entry rfl rfl rfl rfl rfl
    · intro key' addr' estimate' t' usageAfter' remaining' heq
      cases heq
      exact ⟨_, AList.lookup_insert _⟩
  | insert pc held =>
    obtain ⟨s, hentry⟩ := h.held _ _ _ _ _ _ _ pc
    simp only [World.write, hentry, if_true]
    refine Arcs.run ?_ _ rfl
    exact h.put hentry rfl rfl rfl rfl rfl
  | unknownId => exact h.run _ rfl
  | takeId =>
    refine Arcs.run ?_ _ rfl
    exact ⟨h.keyCount, h.keysBounded, h.attached, h.distinct, h.idle, h.held⟩
  | keyGone => exact h.run _ rfl
  | cloneArc => exact h.run _ rfl
  | tooLate => exact h.run _ rfl
  | @settle tid id key addr actual t s r o pc held free active =>
    have hne : P.active s ≠ ∅ := fun he => by simp [he] at active
    have hentry := h.attached_of_active held hne
    simp only [World.write, World.forget, hentry, if_true]
    refine Arcs.run ?_ _ rfl
    exact h.put hentry rfl rfl rfl rfl rfl
  | scanned => exact h.run _ rfl
  | skip => exact h.run _ rfl
  | sweep pc entry =>
    refine (h.reap _ _ entry).run _ ?_
    split <;> rfl
  | evict pc entry same free empty =>
    subst same
    exact (h.evict entry free empty).run _ rfl
  | keep => exact h.run _ rfl

theorem detached_step (h : Arcs P B w) (step : Step P B w w') {addr : ℕ} {s : σ}
    (hs : w.detached.lookup addr = some s) : w'.detached.lookup addr = some s := by
  cases step with
  | exhausted pc good entry => rw [reap_attached entry]; exact hs
  | activeFull pc good entry => rw [reap_attached entry]; exact hs
  | count pc good entry => rw [reap_attached entry]; exact hs
  | sweep pc entry => rw [reap_attached entry]; exact hs
  | insert pc held =>
    obtain ⟨s, hentry⟩ := h.held _ _ _ _ _ _ _ pc
    simp only [World.write, hentry, if_true]
    exact hs
  | @settle tid id key addr actual t s r o pc held free active =>
    have hne : P.active s ≠ ∅ := fun he => by simp [he] at active
    simp only [World.write, World.forget, h.attached_of_active held hne, if_true]
    exact hs
  | @evict tid t key addr' scan orphaned slot pc entry same =>
    have hne : addr ≠ addr' := by
      rintro rfl
      have := (h.attached key slot entry).2
      rw [same, hs] at this
      cases this
    simp only [World.run, AList.lookup_insert_ne hne]
    exact hs
  | _ => exact hs

theorem arcs_new : Arcs P B (World.new : World σ) := by
  constructor
  · rfl
  · exact Int.natCast_nonneg _
  all_goals intros; simp_all [World.new]

theorem accounts_new : Accounts P B (World.new : World σ) := by
  constructor
  · intro id
    simp [World.new, World.activeIds, collect]
  · intro id
    simp [World.new]
  · rfl
  · exact Int.natCast_nonneg _

theorem reachable_invariant (h : Reachable P B w) : Arcs P B w ∧ Accounts P B w := by
  induction h with
  | new => exact ⟨arcs_new, accounts_new⟩
  | step _ st ih => exact ⟨arcs_step ih.1 st, accounts_step ih.1 ih.2 st⟩

theorem Accounts.one_fate (h : Accounts P B w) (id : ℕ) :
    w.applied.count id + w.reaped.count id + (w.activeIds P).count id =
      if id ∈ w.admitted then 1 else 0 := by
  have honce := h.once id
  have hdistinct := h.distinct id
  split_ifs with hmem
  · have hpos := count_pos_iff.mpr hmem
    split_ifs at hdistinct <;> omega
  · have hzero := count_eq_zero.mpr hmem
    omega

section Charging

open SlidingWindowLedger (LedgerConfig KeyState Usage)

variable {c : LedgerConfig} {w w' : World KeyState} {key : String} {slot : Slot KeyState}
  {nowMs : ℕ}

def settled (keys : KeyedMap String (Slot KeyState)) (key : String) : List Usage :=
  (keys.lookup key).elim [] (·.state.settled)

/-- A locked section on the entry of `key` has charged `paid` and then, each at its estimate, the
reservations that it found timed out; charges leave from the front once no window reaches them. -/
structure Charged (c : LedgerConfig) (w w' : World KeyState) (key : String) (slot : Slot KeyState)
    (nowMs : ℕ) (paid : List Usage) (expired : List ℕ) : Prop where
  entry : w.keys.lookup key = some slot
  timedOut : ∀ id ∈ expired, ∃ r, slot.state.active.lookup id = some r ∧
    c.reservationTimeoutMs ≤ nowMs - r.createdAtMs
  reaped : w'.reaped = expired ++ w.reaped
  written : settled w'.keys key = (slot.state.settled ++ paid ++ expired.filterMap fun id =>
    (slot.state.active.lookup id).map fun r => (⟨r.createdAtMs, r.estimate⟩ : Usage)).dropWhile
      fun e => c.maxWindow ≤ nowMs - e.atMs
  others : ∀ other ≠ key, settled w'.keys other = settled w.keys other

/-- What one step writes to the keys' charges, beside the ids it applies and reaps. -/
inductive Charges (c : LedgerConfig) (w w' : World KeyState) : Prop where
  | nothing (applied : w'.applied = w.applied) (reaped : w'.reaped = w.reaped)
    (kept : ∀ key, settled w'.keys key = settled w.keys key)
  | reaps {key slot nowMs expired} (charged : Charged c w w' key slot nowMs [] expired)
    (applied : w'.applied = w.applied)
  | settles {tid id key slot nowMs actual r expired}
    (charged : Charged c w w' key slot nowMs [⟨r.createdAtMs, actual.getD r.estimate⟩] expired)
    (pc : w.threads.lookup tid = some (.settling id key slot.addr actual nowMs))
    (active : slot.state.active.lookup id = some r)
    (applied : w'.applied = id :: w.applied)
    (returned : w'.threads.lookup tid = some (.returned (.settlement (.applied
      (actual.getD r.estimate) (r.estimate - actual.getD r.estimate)
      (actual.getD r.estimate - r.estimate)))))

theorem settled_insert (keys : KeyedMap String (Slot KeyState)) (slot : Slot KeyState)
    (other : String) : settled (keys.insert key slot) other =
      if other = key then slot.state.settled else settled keys other := by
  unfold settled
  split_ifs with h
  · rw [h, AList.lookup_insert]
    rfl
  · rw [AList.lookup_insert_ne h]

/-- Writing a state with the same charges changes no charge. -/
theorem settled_insert_same {keys : KeyedMap String (Slot KeyState)}
    (h : slot.state.settled = settled keys key) (other : String) :
    settled (keys.insert key slot) other = settled keys other := by
  rw [settled_insert, h]
  split_ifs with hother
  · rw [hother]
  · rfl

theorem charged_reap (h : w.keys.lookup key = some slot) (o : IterOrder)
    (hkeys : w'.keys = w.keys.insert key ⟨slot.addr, (slot.state.reap c o nowMs).1⟩)
    (hreaped : w'.reaped = (slot.state.reap c o nowMs).2 ++ w.reaped) :
    Charged c w w' key slot nowMs [] (slot.state.reap c o nowMs).2 := by
  refine ⟨h, fun id hid => mem_expiredIds.mp hid, hreaped, ?_, fun other hother => ?_⟩
  · rw [hkeys, settled_insert, if_pos rfl, append_nil]
    exact congrArg _ (SlidingWindowLedger.foldl_chargeExpired_settled (expiredIds_nodup _ _ _ _) _)
  · rw [hkeys, settled_insert, if_neg hother]

theorem charged_settle (h : w.keys.lookup key = some slot) (o : IterOrder) {id actual : ℕ}
    {r : ActiveReservation}
    (hkeys : w'.keys = w.keys.insert key
      ⟨slot.addr, ((slot.state.release id).settle c o nowMs r actual).1⟩)
    (hreaped : w'.reaped = ((slot.state.release id).settle c o nowMs r actual).2 ++ w.reaped) :
    Charged c w w' key slot nowMs [⟨r.createdAtMs, actual⟩]
      ((slot.state.release id).settle c o nowMs r actual).2 := by
  -- the reservations that time out are others than the one just released
  have hlookup : ∀ other ∈ ((slot.state.release id).settle c o nowMs r actual).2,
      (slot.state.active.erase id).lookup other = slot.state.active.lookup other := by
    intro other hother
    refine AList.lookup_erase_ne ?_
    rintro rfl
    obtain ⟨r', hr', -⟩ := mem_expiredIds.mp hother
    cases (AList.lookup_erase _ _).symm.trans hr'
  refine ⟨h, fun other hother => ?_, hreaped, ?_, fun other hother => ?_⟩
  · rw [← hlookup other hother]
    exact mem_expiredIds.mp hother
  · rw [hkeys, settled_insert, if_pos rfl,
      ← filterMap_congr fun other hother => congrArg _ (hlookup other hother)]
    exact congrArg _ (SlidingWindowLedger.foldl_chargeExpired_settled (expiredIds_nodup _ _ _ _) _)
  · rw [hkeys, settled_insert, if_neg hother]

theorem charges_step (h : Arcs (SlidingWindowLedger.policy c) c.bounds w)
    (step : Step (SlidingWindowLedger.policy c) c.bounds w w') : Charges c w w' := by
  cases step with
  | createKey pc good vacant =>
    exact .nothing rfl rfl (settled_insert_same (by rw [settled, vacant]; rfl))
  | exhausted pc good entry =>
    rw [reap_attached entry]
    exact .reaps (charged_reap entry _ rfl rfl) rfl
  | activeFull pc good entry =>
    rw [reap_attached entry]
    exact .reaps (charged_reap entry _ rfl rfl) rfl
  | count pc good entry =>
    rw [reap_attached entry]
    exact .reaps (charged_reap entry _ rfl rfl) rfl
  | sweep pc entry =>
    rw [reap_attached entry]
    exact .reaps (charged_reap entry _ rfl rfl) rfl
  | @insert tid key addr estimate t usageAfter remaining s pc held =>
    obtain ⟨s', hentry⟩ := h.held _ _ _ _ _ _ _ pc
    obtain rfl : s' = s := Option.some.inj ((deref_attached hentry).symm.trans held)
    simp only [World.write, hentry, if_true]
    exact .nothing rfl rfl (settled_insert_same (by rw [settled, hentry]; rfl))
  | @settle tid id key addr actual t s r o pc held free active =>
    have hentry := h.attached_of_active held fun he => by simp [he] at active
    simp only [World.write, World.forget, hentry, if_true]
    exact .settles (charged_settle hentry o rfl rfl) pc active rfl (AList.lookup_insert _)
  | @evict tid t key addr scan orphaned slot pc entry same free empty =>
    refine .nothing rfl rfl fun other => ?_
    by_cases hkey : other = key
    · subst hkey
      have hempty : slot.state.settled = [] := by
        have hboth : slot.state.isEmpty = true := empty
        simp only [KeyState.isEmpty, Bool.and_eq_true, List.isEmpty_iff] at hboth
        exact hboth.2
      simp [settled, World.run, entry, hempty]
    · simp [settled, World.run, AList.lookup_erase_ne hkey]
  | _ => exact .nothing rfl rfl fun _ => rfl

end Charging

/-- In every interleaving of calls on the sliding-window ledger: an admitted id has exactly one
fate, the active counter is exact, never negative and never above its bound, the key counter
is exact and bounded, no step changes a key state that has left the map, and every step that
applies or reaps ids charges exactly those, at the actual amount or at their estimates. -/
theorem interleaved_bookkeeping (c : SlidingWindowLedger.LedgerConfig)
    {w : World SlidingWindowLedger.KeyState}
    (h : Reachable (SlidingWindowLedger.policy c) c.bounds w) :
    (∀ id, w.applied.count id + w.reaped.count id +
        (w.activeIds (SlidingWindowLedger.policy c)).count id =
          if id ∈ w.admitted then 1 else 0) ∧
      (w.activeReservations =
          (w.activeIds (SlidingWindowLedger.policy c)).length + w.counted ∧
        0 ≤ w.activeReservations ∧ w.activeReservations ≤ c.maxActiveReservations) ∧
      (w.keyCount = w.keys.keys.length ∧ w.keyCount ≤ c.maxKeys) ∧
      ∀ w', Step (SlidingWindowLedger.policy c) c.bounds w w' → Charges c w w' ∧
        ∀ addr s, w.detached.lookup addr = some s → w'.detached.lookup addr = some s := by
  obtain ⟨harcs, haccounts⟩ := reachable_invariant h
  have hcounter := haccounts.counter
  refine ⟨haccounts.one_fate, ⟨hcounter, by omega, haccounts.bounded⟩,
    ⟨harcs.keyCount, harcs.keysBounded⟩, ?_⟩
  intro w' step
  exact ⟨charges_step harcs step, fun addr s hs => detached_step harcs step hs⟩

/-- Two reserves overlap on one key; later the second is settled, which reaps the first, whose
own reconcile has already taken its id. -/
theorem interleaved_bookkeeping_overtaken :
    let c : SlidingWindowLedger.LedgerConfig := ⟨[⟨100, 80⟩], 50, 4, 8, 4⟩
    ∃ w w' : World SlidingWindowLedger.KeyState,
      Reachable (SlidingWindowLedger.policy c) c.bounds w ∧
      Step (SlidingWindowLedger.policy c) c.bounds w w' ∧ Charges c w w' ∧
      w'.admitted = [2, 1] ∧ w'.applied = [2] ∧ w'.reaped = [1] ∧
      settled w'.keys "k" = [⟨10, 3⟩, ⟨0, 5⟩] ∧
      w'.threads.lookup 3 = some (.found 1 "k" none 50) ∧
      w'.applied.count 1 + w'.reaped.count 1 +
        (w'.activeIds (SlidingWindowLedger.policy c)).count 1 = 1 := by
  intro c
  let P := SlidingWindowLedger.policy c
  let w₁ : World SlidingWindowLedger.KeyState := World.new.run 0 (.reserve "k" 5 0)
  let w₂ := { w₁ with keys := w₁.keys.insert "k" ⟨0, P.fresh⟩, nextAddr := 1, keyCount := 1 }
  let w₃ := { w₂.reap P "k" ⟨0, P.fresh⟩ .asStored 0 with activeReservations := 1 }.run 0
    (.inserting "k" 0 5 0 5 75)
  let w₄ := w₃.run 1 (.reserve "k" 7 10)
  have good : ¬ InvalidKey c.bounds "k" 5 := by decide
  have good' : ¬ InvalidKey c.bounds "k" 7 := by decide
  have h₁ : Reachable P c.bounds w₁ := .step .new (.call rfl trivial)
  have h₂ : Reachable P c.bounds w₂ := h₁.step
    (.createKey (rfl : w₁.threads.lookup 0 = some (.reserve "k" 5 0)) good rfl (by decide))
  have h₃ : Reachable P c.bounds w₃ := h₂.step (.count
    (rfl : w₂.threads.lookup 0 = some (.reserve "k" 5 0)) good
    (rfl : w₂.keys.lookup "k" = some ⟨0, P.fresh⟩) (not_locked rfl 0) rfl (by decide))
  have h₄ : Reachable P c.bounds w₄ := h₃.step (.call rfl trivial)
  let s₁ : SlidingWindowLedger.KeyState := P.hold 1 ⟨5, 0⟩ P.fresh
  let w₅ := ({ w₄ with
    keys := w₄.keys.insert "k" ⟨0, s₁⟩, reservations := w₄.reservations.insert 1 "k", nextId := 2
    admitted := [1] }).run 0 (.returned (.decision (.admitted ⟨1, 5, 0, 5, 75⟩)))
  have h₅ : Reachable P c.bounds w₅ := h₄.step (.insert
    (rfl : w₄.threads.lookup 0 = some (.inserting "k" 0 5 0 5 75))
    (rfl : w₄.deref "k" 0 = some P.fresh))
  let w₆ := { w₅.reap P "k" ⟨0, s₁⟩ .asStored 10 with activeReservations := 2 }.run 1
    (.inserting "k" 0 7 10 12 68)
  have h₆ : Reachable P c.bounds w₆ := h₅.step (.count
    (rfl : w₅.threads.lookup 1 = some (.reserve "k" 7 10)) good'
    (rfl : w₅.keys.lookup "k" = some ⟨0, s₁⟩) (not_locked rfl 0) rfl (by decide))
  let s₂ : SlidingWindowLedger.KeyState := P.hold 2 ⟨7, 10⟩ s₁
  let w₇ := ({ w₆ with
    keys := w₆.keys.insert "k" ⟨0, s₂⟩, reservations := w₆.reservations.insert 2 "k", nextId := 3
    admitted := [2, 1] }).run 1 (.returned (.decision (.admitted ⟨2, 7, 10, 12, 68⟩)))
  have h₇ : Reachable P c.bounds w₇ := h₆.step (.insert
    (rfl : w₆.threads.lookup 1 = some (.inserting "k" 0 7 10 12 68))
    (rfl : w₆.deref "k" 0 = some s₁))
  let w₈ := w₇.run 2 (.reconcile 2 (some 3) 50)
  let w₉ := w₈.run 3 (.reconcile 1 none 50)
  have h₈ : Reachable P c.bounds w₈ := h₇.step (.call rfl trivial)
  have h₉ : Reachable P c.bounds w₉ := h₈.step (.call rfl trivial)
  let w₁₀ := { w₉ with reservations := w₉.reservations.erase 2 }.run 2 (.found 2 "k" (some 3) 50)
  let w₁₁ := { w₁₀ with reservations := w₁₀.reservations.erase 1 }.run 3 (.found 1 "k" none 50)
  let w₁₂ := w₁₁.run 2 (.settling 2 "k" 0 (some 3) 50)
  have h₁₀ : Reachable P c.bounds w₁₀ := h₉.step
    (.takeId (rfl : w₉.threads.lookup 2 = some (.reconcile 2 (some 3) 50)) rfl)
  have h₁₁ : Reachable P c.bounds w₁₁ := h₁₀.step
    (.takeId (rfl : w₁₀.threads.lookup 3 = some (.reconcile 1 none 50)) rfl)
  have h₁₂ : Reachable P c.bounds w₁₂ := h₁₁.step (.cloneArc
    (rfl : w₁₁.threads.lookup 2 = some (.found 2 "k" (some 3) 50))
    (rfl : w₁₁.keys.lookup "k" = some ⟨0, s₂⟩))
  have hstep := Step.settle (P := P) (B := c.bounds) (o := .asStored)
    (rfl : w₁₂.threads.lookup 2 = some (.settling 2 "k" 0 (some 3) 50))
    (rfl : w₁₂.deref "k" 0 = some s₂) (not_locked rfl 0)
    (rfl : (P.active s₂).lookup 2 = some ⟨7, 10⟩)
  exact ⟨w₁₂, _, h₁₂, hstep, ((interleaved_bookkeeping c h₁₂).2.2.2 _ hstep).1, rfl, rfl, rfl, rfl,
    rfl, (interleaved_bookkeeping c (h₁₂.step hstep)).1 1⟩

end ConcurrentLedger
