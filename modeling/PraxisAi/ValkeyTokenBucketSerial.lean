import PraxisAi.ValkeyTokenBucket

/-! # Attempts on the shared token bucket are serialisable

Any number of connections run attempts of two steps, the watched read and the `EXEC`. A ghost
log records what was committed. Executing the log one entry after another, each entry reading
afresh, leaves the keys the interleaved run leaves. -/
namespace ValkeyTokenBucketSerial

open List Function
open ExpiringKeys StateBackend ValkeyCommands ValkeyTokenBucket

/-- What an attempt holds between its read and its `EXEC`: the replies, and the watched cells. -/
inductive Attempt where
  | reserve (request : ReserveRequest) (reads : BucketReads) (seenAt : ℕ)
      (bucket : Cell BucketHash)
  | reconcile (request : ReconcileRequest) (value : Option (List Char)) (reads : Bucket)
      (seenAt : ℕ) (bucket : Cell BucketHash) (reservation : Cell (List Char))

/-- A committed attempt and the server's time of its `EXEC`. The counts a reserve took of the
unwatched indexes and the id it drew are part of the attempt. -/
inductive Commit where
  | reserve (time : ℕ) (request : ReserveRequest) (reads : BucketReads)
  | reconcile (time : ℕ) (request : ReconcileRequest)

structure World where
  clock : ℕ
  store : Store
  attempts : ℕ → Option Attempt
  log : List Commit

def World.initial : World := ⟨0, Store.new, fun _ => none, []⟩

def World.attempt (w : World) (connection : ℕ) (a : Option Attempt) : World :=
  { w with attempts := update w.attempts connection a }

def World.commit (w : World) (connection : ℕ) (store : Store) (entry : Commit) : World :=
  { w.attempt connection none with store := store, log := w.log ++ [entry] }

variable (c : ValkeyTokenBucketConfig)

inductive Step : World → World → Prop
  | tick (w : World) (ms : ℕ) : Step w { w with clock := w.clock + ms }
  /-- Other rules of the namespace draw ids and change the index they share. -/
  | elsewhere (w : World) (drawn : ℕ) (active : Option (Slot (SortedSet (String × ℕ)))) :
      Step w { w with store := { w.store with seq := w.store.seq + drawn, active := active } }
  | readReserve (w : World) (n : ℕ) (request : ReserveRequest) (idle : w.attempts n = none) :
      Step w ({ w with store := (readBucket w.store w.clock request).1 }.attempt n
        (some (.reserve request (readBucket w.store w.clock request).2 w.clock
          (w.store.bucket request.key))))
  | readReconcile (w : World) (n : ℕ) (request : ReconcileRequest) (idle : w.attempts n = none) :
      Step w (w.attempt n
        (some (.reconcile request (readReservation w.store w.clock request).1
          (readReservation w.store w.clock request).2 w.clock (w.store.bucket request.key)
          (w.store.reservation request.key request.reservationId))))
  /-- A denial, a no-op, a failure or an aborted `EXEC`; a retry is a new attempt. -/
  | giveUp (w : World) (n : ℕ) : Step w (w.attempt n none)
  | execReserve (w : World) (n : ℕ) (request : ReserveRequest) (reads : BucketReads) (seenAt : ℕ)
      (bucket : Cell BucketHash) (tokensAfter : ℚ)
      (running : w.attempts n = some (.reserve request reads seenAt bucket))
      (plan : planReserve c reads request.estimate = .commit tokensAfter)
      (unchanged : Cell.Unchanged seenAt bucket w.clock (w.store.bucket request.key)) :
      Step w (w.commit n
        (reservationPipeline c w.clock w.store reads.bucket reads.reservationId tokensAfter
          request.estimate)
        (.reserve w.clock request reads))
  | execReconcile (w : World) (n : ℕ) (request : ReconcileRequest) (value : Option (List Char))
      (reads : Bucket) (seenAt : ℕ) (bucket : Cell BucketHash) (reservation : Cell (List Char))
      (actual refund overage : ℕ) (tokens : ℚ)
      (running : w.attempts n =
        some (.reconcile request value reads seenAt bucket reservation))
      (plan : planReconcile c value reads request.actual = .commit actual refund overage tokens)
      (unchanged : Cell.Unchanged seenAt bucket w.clock (w.store.bucket request.key))
      (unchanged' : Cell.Unchanged seenAt reservation w.clock
        (w.store.reservation request.key request.reservationId)) :
      Step w (w.commit n
        (settlementPipeline c w.clock w.store reads request.reservationId tokens)
        (.reconcile w.clock request))

inductive Reachable : World → Prop
  | initial : Reachable .initial
  | step {w w' : World} : Reachable w → Step c w w' → Reachable w'

/-- A committed attempt executed on its own: it reads afresh, then writes what it decides. -/
def execute (s : Store) : Commit → Store
  | .reserve t request reads =>
    let reads := { reads with bucket := bucketAt s t request.key request.nowMs }
    match planReserve c reads request.estimate with
    | .commit tokensAfter =>
      reservationPipeline c t s reads.bucket reads.reservationId tokensAfter request.estimate
    | _ => s
  | .reconcile t request => (reconcile c t s request).1

def replay (log : List Commit) : Store := log.foldl (execute c) Store.new

def reservedIds (log : List Commit) : List ℕ :=
  log.filterMap fun
    | .reserve _ _ reads => some reads.reservationId
    | .reconcile _ _ => none

def settledIds (log : List Commit) : List ℕ :=
  log.filterMap fun
    | .reserve _ _ _ => none
    | .reconcile _ request => some request.reservationId

/-- What an attempt has read is what the watched cells held, and these are earlier states of
the cells now. -/
def Faithful (w : World) : Attempt → Prop
  | .reserve request reads seenAt bucket =>
    seenAt ≤ w.clock ∧ bucket.Later (w.store.bucket request.key) ∧
      reads.bucket = bucketOf (visible seenAt bucket.slot) request.key request.nowMs
  | .reconcile request value reads seenAt bucket reservation =>
    seenAt ≤ w.clock ∧ bucket.Later (w.store.bucket request.key) ∧
      reservation.Later (w.store.reservation request.key request.reservationId) ∧
      value = (visible seenAt reservation.slot).map Slot.value ∧
      reads = bucketOf (visible seenAt bucket.slot) request.key request.nowMs

/-- The cells only move on between two worlds. -/
structure Onward (w w' : World) : Prop where
  clock : w.clock ≤ w'.clock
  bucket : ∀ key (cell : Cell BucketHash), cell.Later (w.store.bucket key) →
    cell.Later (w'.store.bucket key)
  reservation : ∀ key id (cell : Cell (List Char)), cell.Later (w.store.reservation key id) →
    cell.Later (w'.store.reservation key id)

variable {c} {w w' : World}

theorem onward_of_cells (hclock : w.clock ≤ w'.clock) (hbucket : w'.store.bucket = w.store.bucket)
    (hres : w'.store.reservation = w.store.reservation) : Onward w w' :=
  ⟨hclock, fun _ _ h => hbucket ▸ h, fun _ _ _ h => hres ▸ h⟩

theorem step_onward (h : Step c w w') : Onward w w' := by
  cases h with
  | tick ms => exact onward_of_cells (Nat.le_add_right _ _) rfl rfl
  | elsewhere drawn active => exact onward_of_cells le_rfl rfl rfl
  | readReserve n request idle => exact onward_of_cells le_rfl rfl rfl
  | readReconcile n request idle => exact onward_of_cells le_rfl rfl rfl
  | giveUp n => exact onward_of_cells le_rfl rfl rfl
  | execReserve n request reads seenAt bucket tokensAfter running plan unchanged =>
    refine ⟨le_rfl, fun key cell h => ?_, fun key id cell h => ?_⟩
    · simp only [World.commit, reservationPipeline_bucket]
      exact h.update _ _
    · simp only [World.commit, reservationPipeline_reservation]
      exact h.update_update _ _ _
  | execReconcile n request value reads seenAt bucket reservation actual refund overage tokens
      running plan unchanged unchanged' =>
    refine ⟨le_rfl, fun key cell h => ?_, fun key id cell h => ?_⟩
    · simp only [World.commit, settlementPipeline_bucket]
      exact h.update _ _
    · simp only [World.commit, settlementPipeline_reservation]
      exact h.update_update _ _ _

theorem Faithful.onward {a : Attempt} (h : Faithful w a) (ho : Onward w w') : Faithful w' a := by
  cases a with
  | reserve request reads seenAt bucket =>
    exact ⟨h.1.trans ho.clock, ho.bucket _ _ h.2.1, h.2.2⟩
  | reconcile request value reads seenAt bucket reservation =>
    exact ⟨h.1.trans ho.clock, ho.bucket _ _ h.2.1, ho.reservation _ _ _ h.2.2.1, h.2.2.2⟩

/-- An attempt that a step leaves running was running before or has just read. -/
theorem step_attempts (h : Step c w w') {n : ℕ} {a : Attempt} (ha : w'.attempts n = some a) :
    w.attempts n = some a ∨ Faithful w' a := by
  have hupdate : ∀ {m : ℕ} {b : Option Attempt},
      update w.attempts m b n = some a → w.attempts n = some a ∨ b = some a := by
    intro m b hb
    by_cases hn : n = m
    · subst hn
      exact .inr (by rwa [update_self] at hb)
    · exact .inl (by rwa [update_of_ne hn] at hb)
  cases h with
  | tick ms => exact .inl ha
  | elsewhere drawn active => exact .inl ha
  | readReserve n request idle =>
    rcases hupdate ha with h | h
    · exact .inl h
    · obtain rfl := Option.some.inj h
      exact .inr ⟨le_rfl, .refl _, rfl⟩
  | readReconcile n request idle =>
    rcases hupdate ha with h | h
    · exact .inl h
    · obtain rfl := Option.some.inj h
      exact .inr ⟨le_rfl, .refl _, .refl _, rfl, rfl⟩
  | giveUp n => exact .inl ((hupdate ha).resolve_right (by simp))
  | execReserve n request reads seenAt bucket tokensAfter running plan unchanged =>
    exact .inl ((hupdate ha).resolve_right (by simp))
  | execReconcile n request value reads seenAt bucket reservation actual refund overage tokens
      running plan unchanged unchanged' =>
    exact .inl ((hupdate ha).resolve_right (by simp))

theorem reachable_faithful (h : Reachable c w) {n : ℕ} {a : Attempt}
    (ha : w.attempts n = some a) : Faithful w a := by
  induction h generalizing n a with
  | initial => cases ha
  | step _ hstep ih =>
    rcases step_attempts hstep ha with hrunning | hread
    · exact (ih hrunning).onward (step_onward hstep)
    · exact hread

/-- At its `EXEC` an attempt would read again what it has read. -/
theorem Faithful.reread_bucket {request : ReserveRequest} {reads : BucketReads} {seenAt : ℕ}
    {bucket : Cell BucketHash} (h : Faithful w (.reserve request reads seenAt bucket))
    (hu : Cell.Unchanged seenAt bucket w.clock (w.store.bucket request.key)) :
    bucketAt w.store w.clock request.key request.nowMs = reads.bucket := by
  rw [bucketAt, hu.visible_eq h.2.1 h.1, h.2.2]

theorem Faithful.reread_reservation {request : ReconcileRequest} {value : Option (List Char)}
    {reads : Bucket} {seenAt : ℕ} {bucket : Cell BucketHash} {reservation : Cell (List Char)}
    (h : Faithful w (.reconcile request value reads seenAt bucket reservation))
    (hu : Cell.Unchanged seenAt bucket w.clock (w.store.bucket request.key))
    (hu' : Cell.Unchanged seenAt reservation w.clock
      (w.store.reservation request.key request.reservationId)) :
    readReservation w.store w.clock request = (value, reads) := by
  obtain ⟨hle, hbucket, hreservation, rfl, rfl⟩ := h
  rw [readReservation, bucketAt, hu.visible_eq hbucket hle, hu'.visible_eq hreservation hle]

structure Agrees (s s' : Store) : Prop where
  bucket : s.bucket = s'.bucket
  reservation : s.reservation = s'.reservation

theorem Agrees.bucketAt {s s' : Store} (h : Agrees s s') (t : ℕ) (id : String) (nowMs : ℕ) :
    bucketAt s t id nowMs = ValkeyTokenBucket.bucketAt s' t id nowMs := by
  rw [ValkeyTokenBucket.bucketAt, ValkeyTokenBucket.bucketAt, h.bucket]

theorem replay_append (log : List Commit) (entry : Commit) :
    replay c (log ++ [entry]) = execute c (replay c log) entry := by
  simp [replay, foldl_append]

theorem step_agrees (hfaithful : ∀ n a, w.attempts n = some a → Faithful w a)
    (hagrees : Agrees (replay c w.log) w.store) (h : Step c w w') :
    Agrees (replay c w'.log) w'.store := by
  cases h with
  | tick ms => exact hagrees
  | elsewhere drawn active => exact ⟨hagrees.bucket, hagrees.reservation⟩
  | readReserve n request idle => exact ⟨hagrees.bucket, hagrees.reservation⟩
  | readReconcile n request idle => exact hagrees
  | giveUp n => exact hagrees
  | execReserve n request reads seenAt bucket tokensAfter running plan unchanged =>
    have hread := (hfaithful n _ running).reread_bucket unchanged
    have hexec : execute c (replay c w.log) (.reserve w.clock request reads) =
        reservationPipeline c w.clock (replay c w.log) reads.bucket reads.reservationId
          tokensAfter request.estimate := by
      simp only [execute, hagrees.bucketAt, hread, plan]
    simp only [World.commit, replay_append, hexec]
    constructor
    · rw [reservationPipeline_bucket, reservationPipeline_bucket, hagrees.bucket]
    · rw [reservationPipeline_reservation, reservationPipeline_reservation, hagrees.reservation]
  | execReconcile n request value reads seenAt bucket reservation actual refund overage tokens
      running plan unchanged unchanged' =>
    have hread := (hfaithful n _ running).reread_reservation unchanged unchanged'
    have hread' : readReservation (replay c w.log) w.clock request = (value, reads) := by
      rw [← hread, readReservation, readReservation, hagrees.bucketAt, hagrees.reservation]
    have hexec : execute c (replay c w.log) (.reconcile w.clock request) =
        settlementPipeline c w.clock (replay c w.log) reads request.reservationId tokens := by
      simp only [execute, reconcile, hread', plan]
    simp only [World.commit, replay_append, hexec]
    constructor
    · rw [settlementPipeline_bucket, settlementPipeline_bucket, hagrees.bucket]
    · rw [settlementPipeline_reservation, settlementPipeline_reservation, hagrees.reservation]

theorem reachable_agrees (h : Reachable c w) : Agrees (replay c w.log) w.store := by
  induction h with
  | initial => exact ⟨rfl, rfl⟩
  | step hreach hstep ih => exact step_agrees (fun _ _ ha => reachable_faithful hreach ha) ih hstep

def drawnId : Attempt → Option ℕ
  | .reserve _ reads _ _ => some reads.reservationId
  | .reconcile .. => none

/-- The id a connection's running reserve has drawn. -/
def World.drawing (w : World) (n : ℕ) : Option ℕ := (w.attempts n).bind drawnId

theorem drawing_attempt (w : World) (n : ℕ) (a : Option Attempt) (m : ℕ) :
    (w.attempt n a).drawing m = if m = n then a.bind drawnId else w.drawing m := by
  by_cases hm : m = n
  · subst hm
    simp [World.drawing, World.attempt]
  · simp [World.drawing, World.attempt, hm]

/-- Ids are drawn once, so no two reservations share one. -/
structure Numbered (w : World) : Prop where
  below : ∀ id ∈ reservedIds w.log, id ≤ w.store.seq
  nodup : (reservedIds w.log).Nodup
  drawn : ∀ n id, w.drawing n = some id → id ≤ w.store.seq ∧ id ∉ reservedIds w.log
  distinct : ∀ n n' id, w.drawing n = some id → w.drawing n' = some id → n = n'

@[simp] theorem reservedIds_reserve (log : List Commit) (t : ℕ) (request : ReserveRequest)
    (reads : BucketReads) :
    reservedIds (log ++ [.reserve t request reads]) = reservedIds log ++ [reads.reservationId] := by
  simp [reservedIds]

@[simp] theorem reservedIds_reconcile (log : List Commit) (t : ℕ) (request : ReconcileRequest) :
    reservedIds (log ++ [.reconcile t request]) = reservedIds log := by
  simp [reservedIds]

@[simp] theorem settledIds_reserve (log : List Commit) (t : ℕ) (request : ReserveRequest)
    (reads : BucketReads) :
    settledIds (log ++ [.reserve t request reads]) = settledIds log := by
  simp [settledIds]

@[simp] theorem settledIds_reconcile (log : List Commit) (t : ℕ) (request : ReconcileRequest) :
    settledIds (log ++ [.reconcile t request]) = settledIds log ++ [request.reservationId] := by
  simp [settledIds]

theorem Numbered.of_drawing (h : Numbered w) (hlog : reservedIds w'.log = reservedIds w.log)
    (hseq : w.store.seq ≤ w'.store.seq)
    (hdrawing : ∀ n id, w'.drawing n = some id → w.drawing n = some id) : Numbered w' := by
  refine ⟨?_, hlog ▸ h.nodup, ?_, ?_⟩
  · intro id hid
    exact (h.below id (hlog ▸ hid)).trans hseq
  · intro n id hid
    obtain ⟨hle, hnew⟩ := h.drawn n id (hdrawing n id hid)
    exact ⟨hle.trans hseq, hlog ▸ hnew⟩
  · intro n n' id hn hn'
    exact h.distinct n n' id (hdrawing n id hn) (hdrawing n' id hn')

theorem drawing_stopped {n m id : ℕ} {a : Option Attempt} (ha : a.bind drawnId = none)
    (h : (w.attempt n a).drawing m = some id) : m ≠ n ∧ w.drawing m = some id := by
  rw [drawing_attempt, ha] at h
  split at h
  · cases h
  · next hm => exact ⟨hm, h⟩

theorem step_numbered (hn : Numbered w) (h : Step c w w') : Numbered w' := by
  cases h with
  | tick ms => exact hn.of_drawing rfl le_rfl fun _ _ h => h
  | elsewhere drawn active => exact hn.of_drawing rfl (Nat.le_add_right _ _) fun _ _ h => h
  | readReserve n request idle =>
    have hfresh : ∀ m, w.drawing m ≠ some (w.store.seq + 1) := by
      intro m hm
      have := (hn.drawn m _ hm).1
      omega
    refine ⟨?_, hn.nodup, ?_, ?_⟩
    · intro id hid
      exact (hn.below id hid).trans (Nat.le_succ _)
    · intro m id hm
      rw [drawing_attempt] at hm
      split at hm
      · obtain rfl := Option.some.inj hm
        refine ⟨le_rfl, fun hid => ?_⟩
        have hle : w.store.seq + 1 ≤ w.store.seq := hn.below _ hid
        omega
      · obtain ⟨hle, hnew⟩ := hn.drawn m id hm
        exact ⟨hle.trans (Nat.le_succ _), hnew⟩
    · intro m m' id hm hm'
      rw [drawing_attempt] at hm hm'
      split at hm <;> split at hm'
      · next h h' => rw [h, h']
      · obtain rfl := Option.some.inj hm
        exact absurd hm' (hfresh m')
      · obtain rfl := Option.some.inj hm'
        exact absurd hm (hfresh m)
      · exact hn.distinct m m' id hm hm'
  | readReconcile n request idle =>
    exact hn.of_drawing rfl le_rfl fun _ _ h => (drawing_stopped rfl h).2
  | giveUp n => exact hn.of_drawing rfl le_rfl fun _ _ h => (drawing_stopped rfl h).2
  | execReserve n request reads seenAt bucket tokensAfter running plan unchanged =>
    have hdrawn : w.drawing n = some reads.reservationId := by
      simp [World.drawing, running, drawnId]
    obtain ⟨hle, hnew⟩ := hn.drawn n _ hdrawn
    have hids : reservedIds (w.log ++ [.reserve w.clock request reads]) =
        reservedIds w.log ++ [reads.reservationId] := reservedIds_reserve _ _ _ _
    refine ⟨?_, ?_, ?_, ?_⟩
    · intro id hid
      simp only [World.commit, hids, mem_append, mem_singleton] at hid
      rcases hid with hid | rfl
      · exact hn.below id hid
      · exact hle
    · simp only [World.commit, hids]
      refine nodup_append.mpr ⟨hn.nodup, nodup_singleton _, ?_⟩
      rintro a ha b hb rfl
      exact hnew (mem_singleton.mp hb ▸ ha)
    · intro m id hm
      obtain ⟨hne, hm⟩ := drawing_stopped rfl hm
      obtain ⟨hle, hnew⟩ := hn.drawn m id hm
      refine ⟨hle, ?_⟩
      simp only [World.commit, hids, mem_append, mem_singleton, not_or]
      refine ⟨hnew, ?_⟩
      rintro rfl
      exact hne (hn.distinct m n _ hm hdrawn)
    · intro m m' id hm hm'
      exact hn.distinct m m' id (drawing_stopped rfl hm).2 (drawing_stopped rfl hm').2
  | execReconcile n request value reads seenAt bucket reservation actual refund overage tokens
      running plan unchanged unchanged' =>
    exact hn.of_drawing (reservedIds_reconcile _ _ _) le_rfl fun _ _ h =>
      (drawing_stopped rfl h).2

theorem reachable_numbered (h : Reachable c w) : Numbered w := by
  induction h with
  | initial =>
    exact ⟨fun _ h => absurd h not_mem_nil, nodup_nil, (fun _ _ h => nomatch h),
      (fun _ _ _ h => nomatch h)⟩
  | step _ hstep ih => exact step_numbered ih hstep

theorem mem_reservedIds {log : List Commit} {t : ℕ} {request : ReserveRequest}
    {reads : BucketReads} (h : .reserve t request reads ∈ log) :
    reads.reservationId ∈ reservedIds log :=
  mem_filterMap.mpr ⟨_, h, rfl⟩

theorem reserve_unique {log : List Commit} (h : (reservedIds log).Nodup) {t t' : ℕ}
    {request request' : ReserveRequest} {reads reads' : BucketReads}
    (hmem : .reserve t request reads ∈ log) (hmem' : .reserve t' request' reads' ∈ log)
    (hid : reads.reservationId = reads'.reservationId) : request = request' := by
  induction log with
  | nil => cases hmem
  | cons entry log ih =>
    have htail : (reservedIds log).Nodup :=
      h.sublist ((sublist_cons_self entry log).filterMap _)
    have hhead : ∀ {t request reads}, entry = .reserve t request reads →
        reads.reservationId ∉ reservedIds log := by
      rintro t request reads rfl
      exact (nodup_cons.mp h).1
    rcases mem_cons.mp hmem with heq | hmem
    · rcases mem_cons.mp hmem' with heq' | hmem'
      · exact (Commit.reserve.inj (heq.trans heq'.symm)).2.1
      · exact absurd (hid ▸ mem_reservedIds hmem') (hhead heq.symm)
    · rcases mem_cons.mp hmem' with heq' | hmem'
      · exact absurd (hid ▸ mem_reservedIds hmem) (hhead heq'.symm)
      · exact ih htail hmem hmem'

/-- What the log says about the reservations that are stored and about those settled. -/
structure Settled (c : ValkeyTokenBucketConfig) (w : World) : Prop where
  held : ∀ key id slot, (w.store.reservation key id).slot = some slot →
    id ∉ settledIds w.log ∧ ∃ t request reads, .reserve t request reads ∈ w.log ∧
      request.key = key ∧ reads.reservationId = id ∧
      slot.expiresAt = some (t + c.reservationTimeoutMs)
  once : (settledIds w.log).Nodup
  reserved : ∀ id ∈ settledIds w.log, id ∈ reservedIds w.log
  timely : ∀ before t request after, w.log = before ++ .reconcile t request :: after →
    ∃ t₀ reserved reads, .reserve t₀ reserved reads ∈ before ∧ reserved.key = request.key ∧
      reads.reservationId = request.reservationId ∧ t < t₀ + c.reservationTimeoutMs

theorem split_append {α : Type} {log before after : List α} {last entry : α}
    (h : log ++ [last] = before ++ entry :: after) :
    (before = log ∧ entry = last) ∨ ∃ after', log = before ++ entry :: after' := by
  rcases eq_nil_or_concat after with rfl | ⟨after', x, rfl⟩
  · obtain ⟨rfl, heq⟩ := append_inj' h rfl
    exact .inl ⟨rfl, (singleton_inj.mp heq).symm⟩
  · rw [concat_eq_append, ← cons_append, ← append_assoc] at h
    exact .inr ⟨after', (append_inj' h rfl).1⟩

theorem Settled.of_reservations (h : Settled c w) (hlog : w'.log = w.log)
    (hres : w'.store.reservation = w.store.reservation) : Settled c w' := by
  refine ⟨?_, hlog ▸ h.once, hlog ▸ h.reserved, hlog ▸ h.timely⟩
  intro key id slot hslot
  rw [hres] at hslot
  rw [hlog]
  exact h.held key id slot hslot

theorem Settled.execReserve (h : Settled c w) (hn : Numbered w) {n : ℕ} {request : ReserveRequest}
    {reads : BucketReads} {tokensAfter : ℚ} (hdrawn : w.drawing n = some reads.reservationId)
    (hid : reads.bucket.id = request.key) :
    Settled c (w.commit n (reservationPipeline c w.clock w.store reads.bucket
      reads.reservationId tokensAfter request.estimate) (.reserve w.clock request reads)) := by
  have hnew := (hn.drawn n _ hdrawn).2
  have hids : settledIds (w.log ++ [.reserve w.clock request reads]) = settledIds w.log :=
    settledIds_reserve _ _ _ _
  refine ⟨?_, ?_, ?_, ?_⟩
  · intro key id slot hslot
    simp only [World.commit, reservationPipeline_reservation] at hslot ⊢
    by_cases hthis : key = reads.bucket.id ∧ id = reads.reservationId
    · obtain ⟨rfl, rfl⟩ := hthis
      rw [update_self, update_self, write_slot, Option.some.injEq] at hslot
      subst hslot
      refine ⟨fun hmem => hnew (h.reserved _ (hids ▸ hmem)), w.clock, request, reads, ?_, hid.symm,
        rfl, rfl⟩
      simp
    · have hold : (w.store.reservation key id).slot = some slot := by
        rw [← hslot]
        by_cases hk : key = reads.bucket.id
        · subst hk
          rw [update_self, update_of_ne fun hi => hthis ⟨rfl, hi⟩]
        · rw [update_of_ne hk]
      obtain ⟨hunsettled, t, request', reads', hmem, hrest⟩ := h.held key id slot hold
      exact ⟨hids ▸ hunsettled, t, request', reads', mem_append_left _ hmem, hrest⟩
  · exact hids ▸ h.once
  · intro id hmem
    simp only [World.commit, reservedIds_reserve, mem_append]
    exact .inl (h.reserved id (hids ▸ hmem))
  · intro before t request' after hsplit
    rcases split_append hsplit with ⟨-, heq⟩ | ⟨after', hlog⟩
    · cases heq
    · exact h.timely before t request' after' hlog

theorem Settled.execReconcile (h : Settled c w) (hn : Numbered w) {n : ℕ}
    {request : ReconcileRequest} {reads : Bucket} {tokens : ℚ} (hid : reads.id = request.key)
    {slot : Slot (List Char)}
    (hslot : visible w.clock (w.store.reservation request.key request.reservationId).slot =
      some slot) :
    Settled c (w.commit n (settlementPipeline c w.clock w.store reads request.reservationId tokens)
      (.reconcile w.clock request)) := by
  obtain ⟨hsome, halive⟩ := visible_eq_some.mp hslot
  obtain ⟨hunsettled, t, reserved, reads', hmem, hkey, hres, hexpires⟩ := h.held _ _ slot hsome
  have hids : settledIds (w.log ++ [.reconcile w.clock request]) =
      settledIds w.log ++ [request.reservationId] := settledIds_reconcile _ _ _
  refine ⟨?_, ?_, ?_, ?_⟩
  · intro key id slot' hslot'
    simp only [World.commit, settlementPipeline_reservation] at hslot' ⊢
    have hne : ¬ (key = reads.id ∧ id = request.reservationId) := by
      rintro ⟨rfl, rfl⟩
      rw [update_self, update_self, write_slot] at hslot'
      cases hslot'
    have hold : (w.store.reservation key id).slot = some slot' := by
      rw [← hslot']
      by_cases hk : key = reads.id
      · subst hk
        rw [update_self, update_of_ne fun hi => hne ⟨rfl, hi⟩]
      · rw [update_of_ne hk]
    obtain ⟨hother, t', reserved', reads'', hmem', hkey', hres', hexpires'⟩ :=
      h.held key id slot' hold
    refine ⟨?_, t', reserved', reads'', mem_append_left _ hmem', hkey', hres', hexpires'⟩
    rw [hids, mem_append, mem_singleton, not_or]
    refine ⟨hother, fun hsame => hne ⟨?_, hsame⟩⟩
    have heq := reserve_unique hn.nodup hmem hmem' (by rw [hres, hres', hsame])
    rw [← hkey', ← heq, hkey, hid]
  · simp only [World.commit, hids]
    refine nodup_append.mpr ⟨h.once, nodup_singleton _, ?_⟩
    rintro a ha b hb rfl
    exact hunsettled (mem_singleton.mp hb ▸ ha)
  · intro id hmem'
    simp only [World.commit, hids, reservedIds_reconcile, mem_append, mem_singleton] at hmem' ⊢
    rcases hmem' with hmem' | rfl
    · exact h.reserved id hmem'
    · exact hres ▸ mem_reservedIds hmem
  · intro before t' request' after hsplit
    rcases split_append hsplit with ⟨rfl, heq⟩ | ⟨after', hlog⟩
    · obtain ⟨rfl, rfl⟩ := Commit.reconcile.inj heq
      exact ⟨t, reserved, reads', hmem, hkey, hres, alive_iff.mp halive _ hexpires⟩
    · exact h.timely before t' request' after' hlog

theorem step_settled (hfaithful : ∀ n a, w.attempts n = some a → Faithful w a) (hn : Numbered w)
    (hs : Settled c w) (h : Step c w w') : Settled c w' := by
  cases h with
  | tick ms => exact hs.of_reservations rfl rfl
  | elsewhere drawn active => exact hs.of_reservations rfl rfl
  | readReserve n request idle => exact hs.of_reservations rfl rfl
  | readReconcile n request idle => exact hs.of_reservations rfl rfl
  | giveUp n => exact hs.of_reservations rfl rfl
  | execReserve n request reads seenAt bucket tokensAfter running plan unchanged =>
    refine hs.execReserve hn ?_ ?_
    · simp [World.drawing, running, drawnId]
    · rw [(hfaithful n _ running).2.2]
      rfl
  | execReconcile n request value reads seenAt bucket reservation actual refund overage tokens
      running plan unchanged unchanged' =>
    obtain ⟨hle, -, hlater, hvalue, hreads⟩ := hfaithful n _ running
    have hpresent : ∃ slot, visible w.clock
        (w.store.reservation request.key request.reservationId).slot = some slot := by
      rw [unchanged'.visible_eq hlater hle]
      rcases hseen : visible seenAt reservation.slot with _ | slot
      · simp [hvalue, hseen, planReconcile] at plan
      · exact ⟨slot, rfl⟩
    obtain ⟨slot, hslot⟩ := hpresent
    exact hs.execReconcile hn (by rw [hreads]; rfl) hslot

theorem reachable_settled (h : Reachable c w) : Settled c w := by
  induction h with
  | initial =>
    exact ⟨(fun _ _ _ h => nomatch h), nodup_nil, fun _ h => absurd h not_mem_nil,
      fun before t request after h => by simp [World.initial] at h⟩
  | step hreach hstep ih =>
    exact step_settled (fun _ _ ha => reachable_faithful hreach ha) (reachable_numbered hreach) ih
      hstep

/-- However the attempts of any number of connections interleave, the buckets and reservations
are those left by executing the committed attempts one after another in the order of their
commits, no id is settled by two of them, and every committed settlement found its reservation
before it expired. -/
theorem committed_attempts_serial (c : ValkeyTokenBucketConfig) {w : World}
    (h : Reachable c w) :
    (w.store.bucket = (replay c w.log).bucket ∧
        w.store.reservation = (replay c w.log).reservation) ∧
      (settledIds w.log).Nodup ∧
      ∀ before t request after, w.log = before ++ .reconcile t request :: after →
        ∃ t₀ reserved reads, .reserve t₀ reserved reads ∈ before ∧
          reserved.key = request.key ∧ reads.reservationId = request.reservationId ∧
          t < t₀ + c.reservationTimeoutMs := by
  have hagrees := reachable_agrees h
  have hsettled := reachable_settled h
  exact ⟨⟨hagrees.bucket.symm, hagrees.reservation.symm⟩, hsettled.once, hsettled.timely⟩

/-- One connection admits 60 tokens while another has read the same bucket, and a third
settles. -/
theorem committed_attempts_serial_settled :
    let c : ValkeyTokenBucketConfig := ⟨100, 10, 5000, 4, 4⟩
    ∃ w, Reachable c w ∧ settledIds w.log = [1] ∧ (w.attempts 1).isSome ∧
      w.store.bucket = (replay c w.log).bucket := by
  intro c
  have h₁ := Reachable.initial (c := c).step (.readReserve _ 0 ⟨"k", 60, 1000⟩ rfl)
  have h₂ := h₁.step (.readReserve _ 1 ⟨"k", 50, 1000⟩ rfl)
  have h₃ := h₂.step (.execReserve _ 0 _ _ _ _ 40 rfl (by decide +kernel) ⟨rfl, id⟩)
  have h₄ := h₃.step (.readReconcile _ 2 ⟨"k", 1, some 20, 2000⟩ rfl)
  have h₅ := h₄.step (.execReconcile _ 2 _ _ _ _ _ _ 20 40 0 90 rfl (by decide +kernel)
    ⟨rfl, id⟩ ⟨rfl, id⟩)
  exact ⟨_, h₅, rfl, rfl, (committed_attempts_serial c h₅).1.1⟩

section Balances

def InRange (c : ValkeyTokenBucketConfig) (tokens : ℚ) : Prop := 0 ≤ tokens ∧ tokens ≤ c.capacity

def Balanced (c : ValkeyTokenBucketConfig) (buckets : String → Cell BucketHash) : Prop :=
  ∀ key slot, (buckets key).slot = some slot → InRange c slot.value.tokens

/-- A balance in range is never refused as a bad reply, and is refilled to one in range. -/
theorem Balanced.refills (h : Balanced c w.store.bucket) (hrate : 0 < c.refillRate) (t : ℕ)
    (key : String) (nowMs : ℕ) :
    ∃ tokens, refill c (bucketAt w.store t key nowMs) = .ok tokens ∧ InRange c tokens := by
  rw [bucketAt]
  rcases hslot : visible t (w.store.bucket key).slot with _ | slot
  · exact ⟨_, rfl, Nat.cast_nonneg _, le_rfl⟩
  · have hnonneg := (h key slot (visible_eq_some.mp hslot).1).1
    refine ⟨_, if_neg (not_lt.mpr hnonneg), le_min ?_ (Nat.cast_nonneg _), min_le_right _ _⟩
    positivity

theorem Balanced.write {buckets : String → Cell BucketHash} (h : Balanced c buckets) {key : String}
    {slot : Slot BucketHash} (hslot : InRange c slot.value.tokens) :
    Balanced c (update buckets key ((buckets key).write slot)) := by
  intro other found hfound
  by_cases hkey : other = key
  · subst hkey
    rw [update_self, write_slot] at hfound
    cases hfound
    exact hslot
  · rw [update_of_ne hkey] at hfound
    exact h other found hfound

/-- An attempt commits what it has read, and that is what is stored. -/
theorem step_balanced (hrate : 0 < c.refillRate) (hreach : Reachable c w)
    (h : Balanced c w.store.bucket) (hstep : Step c w w') : Balanced c w'.store.bucket := by
  cases hstep with
  | execReserve n request reads seenAt bucket tokensAfter running plan unchanged =>
    obtain ⟨tokens, hrefill, hlow, hhigh⟩ := h.refills hrate w.clock request.key request.nowMs
    rw [(reachable_faithful hreach running).reread_bucket unchanged] at hrefill
    simp only [planReserve, hrefill, denyReason] at plan
    split_ifs at plan with hkeys hactive hdeficit
    cases plan
    have hestimate : (0 : ℚ) ≤ request.estimate := Nat.cast_nonneg _
    have hrange : InRange c (tokens - request.estimate) := ⟨by linarith, by linarith⟩
    simp only [World.commit, reservationPipeline_bucket]
    exact h.write hrange
  | execReconcile n request value reads seenAt bucket reservation actual refund overage tokens
      running plan =>
    have hsettled : ∃ before : ℚ, settled c before refund overage = tokens := by
      unfold planReconcile at plan
      split at plan
      · cases plan
      · split at plan
        · cases plan
        · dsimp only at plan
          split at plan
          · cases plan
          · cases plan
            exact ⟨_, rfl⟩
    obtain ⟨before, rfl⟩ := hsettled
    simp only [World.commit, settlementPipeline_bucket]
    exact h.write ⟨le_min (le_max_right _ _) (Nat.cast_nonneg _), min_le_right _ _⟩
  | _ => exact h

/-- In every interleaving of attempts, whatever times their requests carry: a stored balance is
between zero and the capacity, and an attempt that reads one can refill it. -/
theorem shared_balances_in_range (c : ValkeyTokenBucketConfig)
    (valid : TokenBucketLedger.validateCapacityAndRefillRate c.capacity c.refillRate = .ok ())
    {w : World} (h : Reachable c w) :
    (∀ key slot, (w.store.bucket key).slot = some slot →
        0 ≤ slot.value.tokens ∧ slot.value.tokens ≤ c.capacity) ∧
      ∀ t key nowMs, ∃ tokens, refill c (bucketAt w.store t key nowMs) = .ok tokens ∧
        0 ≤ tokens ∧ tokens ≤ c.capacity := by
  have hrate := (TokenBucketLedger.validateCapacityAndRefillRate_ok valid).2.2
  have hbalanced : Balanced c w.store.bucket := by
    induction h with
    | initial =>
      intro key slot hslot
      cases hslot
    | step hreach hstep ih => exact step_balanced hrate hreach ih hstep
  exact ⟨hbalanced, hbalanced.refills hrate⟩

/-- Sixty of a hundred tokens have been admitted. -/
theorem sixty_admitted_in_range :
    let c : ValkeyTokenBucketConfig := ⟨100, 10, 5000, 4, 4⟩
    ∃ w, Reachable c w ∧ reservedIds w.log = [1] ∧
      ∃ tokens, refill c (bucketAt w.store 0 "k" 0) = .ok tokens ∧ 0 ≤ tokens ∧ tokens ≤ 100 := by
  intro c
  have h₁ := Reachable.initial (c := c).step (.readReserve _ 0 ⟨"k", 60, 1000⟩ rfl)
  have h₂ := h₁.step (.execReserve _ 0 _ _ _ _ 40 rfl (by decide +kernel) ⟨rfl, id⟩)
  exact ⟨_, h₂, rfl, (shared_balances_in_range c (by decide +kernel) h₂).2 0 "k" 0⟩

end Balances

end ValkeyTokenBucketSerial
