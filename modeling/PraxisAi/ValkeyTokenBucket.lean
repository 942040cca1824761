import PraxisAi.ValkeyCommands

/-! # The token bucket shared through Valkey

`token_rate_limit/valkey/token_bucket.rs`. An attempt reads under `WATCH`, decides on what it
read, and writes in one `MULTI` block. Keys are named by their opaque identifiers. Times of the
server's clock, at which keys expire, are kept apart from the times requests carry. -/
namespace ValkeyTokenBucket

open Function
open ExpiringKeys KeyedMaps SaturatingArithmetic ReservationLedger TokenBucketLedger StateBackend
open ValkeyCommands

structure ValkeyTokenBucketConfig where
  capacity : ℕ
  refillRate : ℚ
  reservationTimeoutMs : ℕ
  maxKeys : ℕ
  maxActiveReservations : ℕ

structure BucketHash where
  tokens : ℚ
  lastRefillMs : ℕ
  deriving DecidableEq

structure Store where
  bucket : String → Cell BucketHash
  reservation : String → ℕ → Cell (List Char)
  seq : ℕ
  active : Option (Slot (SortedSet (String × ℕ)))
  keys : Option (Slot (SortedSet String))

def Store.new : Store := ⟨fun _ => .empty, fun _ _ => .empty, 0, none, none⟩

structure Bucket where
  id : String
  tokens : Option ℚ
  lastRefillMs : Option ℕ
  nowMs : ℕ
  deriving DecidableEq

structure BucketReads where
  bucket : Bucket
  active : ℕ
  keys : ℕ
  keyKnown : Bool
  reservationId : ℕ
  deriving DecidableEq

def stateTtlMs (c : ValkeyTokenBucketConfig) : ℕ :=
  satAdd u64Max (asU64 ⌈c.capacity / c.refillRate * 1000⌉) c.reservationTimeoutMs

def bucketOf (found : Option (Slot BucketHash)) (id : String) (nowMs : ℕ) : Bucket :=
  ⟨id, found.map fun s => s.value.tokens, found.map fun s => s.value.lastRefillMs, nowMs⟩

def bucketAt (s : Store) (t : ℕ) (id : String) (nowMs : ℕ) : Bucket :=
  bucketOf (visible t (s.bucket id).slot) id nowMs

def refill (c : ValkeyTokenBucketConfig) (bucket : Bucket) : Except BackendError ℚ :=
  match bucket.tokens, bucket.lastRefillMs with
  | some tokens, some lastRefillMs =>
    if tokens < 0 then .error .invalidResponse
    else
      .ok (min (tokens + ((bucket.nowMs - lastRefillMs : ℕ) : ℚ) / 1000 * c.refillRate)
        c.capacity)
  | _, _ => .ok c.capacity

def whole (tokens : ℚ) : ℕ := asU64 (max tokens 0)

/-- The refill time of a write: never moved back. -/
def refilledAt (bucket : Bucket) : ℕ :=
  match bucket.lastRefillMs with
  | none => bucket.nowMs
  | some last => max last bucket.nowMs

/-- Every write re-arms the expiry. -/
def writeBucket (c : ValkeyTokenBucketConfig) (t : ℕ) (s : Store) (bucket : Bucket) (tokens : ℚ) :
    Store :=
  let cell := s.bucket bucket.id
  let slot := extendSharedTtl t (stateTtlMs c) (rewrite t ⟨tokens, refilledAt bucket⟩ cell.slot)
  { s with bucket := update s.bucket bucket.id (cell.write slot) }

def retainKey (c : ValkeyTokenBucketConfig) (t : ℕ) (s : Store) (id : String) (nowMs : ℕ) : Store :=
  { s with
    keys := extendSharedTtl t (stateTtlMs c)
      (zaddGt t (satAdd u64Max nowMs (stateTtlMs c)) id s.keys) }

/-- The read pipeline of a reserve: the bucket, the trimmed indexes and a fresh id. -/
def readBucket (s : Store) (t : ℕ) (request : ReserveRequest) : Store × BucketReads :=
  let active := zremrangebyscore t request.nowMs s.active
  let keys := zremrangebyscore t request.nowMs s.keys
  ({ s with active := active, keys := keys, seq := s.seq + 1 },
    { bucket := bucketAt s t request.key request.nowMs
      active := zcard t active
      keys := zcard t keys
      keyKnown := (zscore t request.key keys).isSome
      reservationId := s.seq + 1 })

def denyReason (c : ValkeyTokenBucketConfig) (tokens : ℚ) (reads : BucketReads) (estimate : ℕ) :
    Option BackendReserve :=
  let deficit := estimate - tokens
  if !reads.keyKnown && c.maxKeys ≤ reads.keys then some (.denied 0 .keyCapacity 0)
  else if c.maxActiveReservations ≤ reads.active then
    some (.denied c.reservationTimeoutMs .reservationCapacity (whole tokens))
  else if 0 < deficit then
    some (.denied (asU64 (max ⌈deficit / c.refillRate * 1000⌉ 1)) .windowCapacity (whole tokens))
  else none

def reservationPipeline (c : ValkeyTokenBucketConfig) (t : ℕ) (s : Store) (bucket : Bucket)
    (reservationId : ℕ) (tokensAfter : ℚ) (estimate : ℕ) : Store :=
  let s := writeBucket c t s bucket tokensAfter
  let slot : Slot (List Char) :=
    ⟨formatReservation estimate bucket.nowMs, some (t + c.reservationTimeoutMs)⟩
  let cell := (s.reservation bucket.id reservationId).write (some slot)
  let s := { s with
    reservation := update s.reservation bucket.id
      (update (s.reservation bucket.id) reservationId cell)
    active := extendSharedTtl t (stateTtlMs c) (zadd t
      (satAdd u64Max bucket.nowMs c.reservationTimeoutMs) (bucket.id, reservationId) s.active) }
  retainKey c t s bucket.id bucket.nowMs

def admitted (c : ValkeyTokenBucketConfig) (reads : BucketReads) (tokensAfter : ℚ)
    (estimate : ℕ) : BackendReserve :=
  .admitted reads.reservationId estimate (whole (c.capacity - tokensAfter)) (whole tokensAfter)

/-- What an attempt to reserve does once it has read: fail, deny, or try to commit a balance. -/
inductive ReservePlan where
  | failed (error : BackendError)
  | denied (reply : BackendReserve)
  | commit (tokensAfter : ℚ)
  deriving DecidableEq

def planReserve (c : ValkeyTokenBucketConfig) (reads : BucketReads) (estimate : ℕ) : ReservePlan :=
  match refill c reads.bucket with
  | .error e => .failed e
  | .ok tokens =>
    match denyReason c tokens reads estimate with
    | some denied => .denied denied
    | none => .commit (tokens - estimate)

def readReservation (s : Store) (t : ℕ) (request : ReconcileRequest) :
    Option (List Char) × Bucket :=
  ((visible t (s.reservation request.key request.reservationId).slot).map Slot.value,
    bucketAt s t request.key request.nowMs)

def settled (c : ValkeyTokenBucketConfig) (tokens : ℚ) (refund overage : ℕ) : ℚ :=
  min (max (tokens + refund - overage) 0) c.capacity

def settlementPipeline (c : ValkeyTokenBucketConfig) (t : ℕ) (s : Store) (bucket : Bucket)
    (reservationId : ℕ) (tokens : ℚ) : Store :=
  let s := retainKey c t (writeBucket c t s bucket tokens) bucket.id bucket.nowMs
  let cell := (s.reservation bucket.id reservationId).write none
  { s with
    reservation := update s.reservation bucket.id
      (update (s.reservation bucket.id) reservationId cell)
    active := zrem t (bucket.id, reservationId) s.active }

inductive ReconcilePlan where
  | failed (error : BackendError)
  | noop
  | commit (actual refund overage : ℕ) (tokens : ℚ)
  deriving DecidableEq

def planReconcile (c : ValkeyTokenBucketConfig) (value : Option (List Char)) (bucket : Bucket)
    (actual : Option ℕ) : ReconcilePlan :=
  match value with
  | none => .noop
  | some value =>
    match parseReservation value with
    | .error e => .failed e
    | .ok (estimate, _) =>
      let actual := actual.getD estimate
      let refund := estimate - actual
      let overage := actual - estimate
      match refill c bucket with
      | .error e => .failed e
      | .ok tokens => .commit actual refund overage (settled c tokens refund overage)

/-- One attempt that nothing interferes with, at one time of the server's clock. -/
def reserve (c : ValkeyTokenBucketConfig) (t : ℕ) (s : Store) (request : ReserveRequest) :
    Store × Except BackendError BackendReserve :=
  let (s, reads) := readBucket s t request
  match planReserve c reads request.estimate with
  | .failed e => (s, .error e)
  | .denied reply => (s, .ok reply)
  | .commit tokensAfter =>
    (reservationPipeline c t s reads.bucket reads.reservationId tokensAfter request.estimate,
      .ok (admitted c reads tokensAfter request.estimate))

def reconcile (c : ValkeyTokenBucketConfig) (t : ℕ) (s : Store) (request : ReconcileRequest) :
    Store × Except BackendError BackendSettlement :=
  let (value, bucket) := readReservation s t request
  match planReconcile c value bucket request.actual with
  | .failed e => (s, .error e)
  | .noop => (s, .ok .noop)
  | .commit actual refund overage tokens =>
    (settlementPipeline c t s bucket request.reservationId tokens,
      .ok (.applied actual refund overage))

section Writes

variable (c : ValkeyTokenBucketConfig) (t : ℕ) (s : Store) (bucket : Bucket)

def hashSlot (tokens : ℚ) (found : Option (Slot BucketHash)) : Slot BucketHash :=
  ⟨⟨tokens, refilledAt bucket⟩,
    some (max (((visible t found).bind Slot.expiresAt).getD 0) (t + stateTtlMs c))⟩

def reservationSlot (estimate : ℕ) : Slot (List Char) :=
  ⟨formatReservation estimate bucket.nowMs, some (t + c.reservationTimeoutMs)⟩

theorem reservationPipeline_bucket (reservationId : ℕ) (tokens : ℚ) (estimate : ℕ) :
    (reservationPipeline c t s bucket reservationId tokens estimate).bucket =
      update s.bucket bucket.id ((s.bucket bucket.id).write
        (hashSlot c t bucket tokens (s.bucket bucket.id).slot)) := by
  simp only [reservationPipeline, retainKey, writeBucket, extendSharedTtl, extend_eq, hashSlot,
    rewrite]

theorem reservationPipeline_reservation (reservationId : ℕ) (tokens : ℚ) (estimate : ℕ) :
    (reservationPipeline c t s bucket reservationId tokens estimate).reservation =
      update s.reservation bucket.id (update (s.reservation bucket.id)
        reservationId ((s.reservation bucket.id reservationId).write
          (reservationSlot c t bucket estimate))) := rfl

theorem settlementPipeline_bucket (reservationId : ℕ) (tokens : ℚ) :
    (settlementPipeline c t s bucket reservationId tokens).bucket =
      update s.bucket bucket.id ((s.bucket bucket.id).write
        (hashSlot c t bucket tokens (s.bucket bucket.id).slot)) := by
  simp only [settlementPipeline, retainKey, writeBucket, extendSharedTtl, extend_eq, hashSlot,
    rewrite]

theorem settlementPipeline_reservation (reservationId : ℕ) (tokens : ℚ) :
    (settlementPipeline c t s bucket reservationId tokens).reservation =
      update s.reservation bucket.id (update (s.reservation bucket.id)
        reservationId ((s.reservation bucket.id reservationId).write none)) := rfl

end Writes

end ValkeyTokenBucket
