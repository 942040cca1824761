import PraxisAi.JsonValues
import Mathlib.Logic.Function.Basic

/-! # The in-memory store

Responses, approvals and events behind one lock. Hash maps are partial functions, since no operation
looks at the order of their entries. -/
namespace MemoryStore

open JsonValues

section Records

structure StateOwner where
  tenantId : String
  issuer : String
  subject : String
  deriving DecidableEq

structure ResponseRecord where
  id : String
  owner : StateOwner
  createdAt : ℤ
  model : String
  responseObject : Json
  input : Json
  messages : Json

structure PendingApprovalRecord where
  approvalId : String
  serverLabel : String
  toolName : String
  arguments : String
  targetFingerprint : String
  deriving DecidableEq

structure ResponseEventRecord where
  responseId : String
  owner : StateOwner
  sequenceNumber : ℕ
  eventType : String
  payload : List UInt8
  terminal : Bool
  createdAt : ℤ
  deriving DecidableEq

inductive EventLogStatus where
  | absent
  | incomplete (maxSequence : ℕ)
  | replayable (maxSequence : ℕ)
  deriving DecidableEq

inductive StoreError where
  | database (message : String)
  | invalidInput (message : String)
  | serialization (message : String)
  | unavailable (message : String)
  deriving DecidableEq

structure StoredApproval where
  record : PendingApprovalRecord
  consumedAt : Option ℤ
  deriving DecidableEq

abbrev OwnerKey := StateOwner × String

@[ext] structure Inner where
  responses : String → Option ResponseRecord := fun _ => none
  approvals : StateOwner × String × String → Option StoredApproval := fun _ => none
  events : OwnerKey → Option (List ResponseEventRecord) := fun _ => none

end Records

section Responses

variable (inner : Inner)

def ownsResponse (owner : StateOwner) (id : String) : Bool :=
  (inner.responses id).any fun record => record.owner = owner

/-- The approvals and the events of a response go with it. -/
def deleteResponse (owner : StateOwner) (id : String) : Bool × Inner :=
  let removed := ownsResponse inner owner id
  (removed, { inner with
    responses := if removed then Function.update inner.responses id none else inner.responses
    approvals := fun key =>
      if key.1 = owner ∧ key.2.1 = id then none else inner.approvals key
    events := Function.update inner.events (owner, id) none })

def listEventsAfter (owner : StateOwner) (responseId : String) (after : Option ℕ) (limit : ℕ) :
    List ResponseEventRecord :=
  match inner.events (owner, responseId) with
  | none => []
  | some log =>
    ((log.filter fun event => after.all fun cursor => cursor < event.sequenceNumber).mergeSort
      fun a b => a.sequenceNumber ≤ b.sequenceNumber).take limit

def eventLogStatus (owner : StateOwner) (responseId : String) : EventLogStatus :=
  match inner.events (owner, responseId) with
  | none => .absent
  | some log =>
    match (log.map ResponseEventRecord.sequenceNumber).max? with
    | none => .absent
    | some maxSequence =>
      if log.any ResponseEventRecord.terminal then .replayable maxSequence
      else .incomplete maxSequence

end Responses

end MemoryStore
