import PraxisAi.TokenBucketLedger

/-! # The interface of the state backends

`token_rate_limit/backend.rs`: requests and replies every backend shares. -/
namespace StateBackend

open ReservationLedger TokenBucketLedger

structure ReserveRequest where
  key : String
  estimate : ℕ
  nowMs : ℕ

structure ReconcileRequest where
  key : String
  reservationId : ℕ
  actual : Option ℕ
  nowMs : ℕ

inductive BackendReserve where
  | admitted (reservationId estimate usageAfter remaining : ℕ)
  | denied (retryAfterMs : ℕ) (reason : DenialReason) (remaining : ℕ)
  deriving DecidableEq

inductive BackendSettlement where
  | applied (actual refund overage : ℕ)
  | noop
  deriving DecidableEq

inductive BackendError where
  | unavailable (text : String)
  | invalidResponse
  | configurationMismatch
  deriving DecidableEq

end StateBackend
