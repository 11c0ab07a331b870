import ChronikStream.Metadata.Transaction

/-!
# The InitProducerId request

`handle_init_producer_id` looks the transactional id up, takes the bound producer with the next
epoch or a new one with epoch 0, and registers it. Other requests run between these steps, so a
request is modelled by its phase.
-/

namespace ChronikStream.Metadata

variable (c : TransactionCoordinator) (transactionalId : String)

/-- An event of the transaction coordinator as it is logged and replicated. -/
structure LoggedTransaction where
  transactionalId : String
  timestampMs : Int
  event : TransactionEvent
  deriving DecidableEq

def TransactionCoordinator.applyLogged (e : LoggedTransaction) : TransactionCoordinator :=
  c.apply e.transactionalId e.timestampMs e.event

inductive ErrorCode where
  | none
  | coordinatorNotAvailable
  | invalidProducerEpoch
  deriving DecidableEq

/-- Where an InitProducerId request is. -/
inductive InitPhase where
  | idle
  /-- The entry of the transactional id was read. -/
  | found (transactionalId : String) (existing : Option TransactionMetadata)
  /-- The event of the registration is about to be appended; the epoch of the answer if this fails. -/
  | registering (e : LoggedTransaction) (failedEpoch : Int)
  | applying (e : LoggedTransaction)
  | answered (producerId producerEpoch : Int) (errorCode : ErrorCode)
  deriving DecidableEq

def registration (producerId producerEpoch timeoutMs nowMs : Int) : LoggedTransaction :=
  ⟨transactionalId, nowMs, .beginTransaction producerId producerEpoch timeoutMs⟩

/-- A producer that comes back keeps its id and has its epoch bumped; a new one is allocated an id. -/
def InitPhase.chooseProducer (existing : Option TransactionMetadata) (timeoutMs nowMs : Int) :
    InitPhase × TransactionCoordinator :=
  match existing with
  | some existing =>
    let newEpoch := (existing.producerEpoch + 1).bmod (2 ^ 16)
    (.registering (registration transactionalId existing.producerId newEpoch timeoutMs nowMs)
      existing.producerEpoch, c)
  | none =>
    let (producerId, c) := c.allocateProducerId
    (.registering (registration transactionalId producerId 0 timeoutMs nowMs) 0, c)

def LoggedTransaction.bound (e : LoggedTransaction) : Int × Int :=
  match e.event with
  | .beginTransaction producerId producerEpoch _ => (producerId, producerEpoch)
  | event => (event.producerId, 0)

def InitPhase.appended (e : LoggedTransaction) (failedEpoch : Int) (ok : Bool) : InitPhase :=
  if ok then .applying e else .answered e.bound.1 failedEpoch .coordinatorNotAvailable

def InitPhase.registered (e : LoggedTransaction) : InitPhase := .answered e.bound.1 e.bound.2 .none

/-- A request for a transactional id from its lookup to its answer, when no other one runs meanwhile. -/
def TransactionCoordinator.initProducerId
    (timeoutMs nowMs : Int) (ok : Bool) : InitPhase × TransactionCoordinator :=
  match InitPhase.chooseProducer c transactionalId (c.transactions transactionalId) timeoutMs nowMs with
  | (.registering e failedEpoch, c) =>
    if ok then (.registered e, c.applyLogged e) else (.appended e failedEpoch false, c)
  | (phase, c) => (phase, c)

end ChronikStream.Metadata
