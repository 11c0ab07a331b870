import Mathlib.Algebra.Group.Int.Defs
import Mathlib.Algebra.Group.Nat.Defs
import Mathlib.Data.Finset.Basic

/-!
# The transaction coordinator

For each transactional id the coordinator keeps the bound producer with its epoch, the state of its
transaction and what is enrolled in it, built from events by `apply_event` of
`wal_metadata_store.rs`. `i64` and `i16` arithmetic wraps, which is `Int.bmod`.
-/

namespace ChronikStream.Metadata

inductive TransactionState where
  | empty
  | ongoing
  | prepareCommit
  | prepareAbort
  | completeCommit
  | completeAbort
  deriving DecidableEq

/-- The state of the coordinator for one transactional id. -/
structure TransactionMetadata where
  transactionalId : String
  producerId : Int
  producerEpoch : Int
  state : TransactionState
  timeoutMs : Int
  partitions : Finset (String × Nat)
  groups : Finset String
  lastUpdatedMs : Int
  deriving DecidableEq

namespace TransactionMetadata

def new (transactionalId : String) (producerId producerEpoch timeoutMs nowMs : Int) :
    TransactionMetadata :=
  ⟨transactionalId, producerId, producerEpoch, .empty, timeoutMs, ∅, ∅, nowMs⟩

def IsFenced (txn : TransactionMetadata) (producerId producerEpoch : Int) : Prop :=
  producerId ≠ txn.producerId ∨ producerEpoch < txn.producerEpoch
deriving Decidable

end TransactionMetadata

/-- The events of a transaction. The partitions and offsets that the events of its end carry are not
used. -/
inductive TransactionEvent where
  | beginTransaction (producerId producerEpoch transactionTimeoutMs : Int)
  | addPartitionsToTransaction (producerId producerEpoch : Int) (partitions : List (String × Nat))
  | addOffsetsToTransaction (producerId producerEpoch : Int) (groupId : String)
  | prepareCommit (producerId producerEpoch : Int)
  | prepareAbort (producerId producerEpoch : Int)
  | commitTransaction (producerId producerEpoch : Int)
  | abortTransaction (producerId producerEpoch : Int)
  | producerFenced (newProducerId newProducerEpoch : Int)
  deriving DecidableEq

/-- The producer id that `observe_producer_id` is given. -/
def TransactionEvent.producerId : TransactionEvent → Int
  | .beginTransaction producerId .. | .addPartitionsToTransaction producerId ..
  | .addOffsetsToTransaction producerId .. | .prepareCommit producerId _ | .prepareAbort producerId _
  | .commitTransaction producerId _ | .abortTransaction producerId _ | .producerFenced producerId _ =>
    producerId

/-- A first enrolment starts the transaction. -/
def TransactionState.enroll : TransactionState → TransactionState
  | .empty | .completeCommit | .completeAbort => .ongoing
  | state => state

/-- What an event makes of the entry of its transactional id. Only the registration creates one; it
keeps no enrolment. -/
def TransactionEvent.apply (transactionalId : String) (nowMs : Int) (txn : Option TransactionMetadata) :
    TransactionEvent → Option TransactionMetadata
  | .beginTransaction producerId producerEpoch timeoutMs =>
    let txn := txn.getD (.new transactionalId producerId producerEpoch timeoutMs nowMs)
    some
      { txn with
        producerId := producerId
        producerEpoch := producerEpoch
        timeoutMs := timeoutMs
        state := .empty
        partitions := ∅
        groups := ∅
        lastUpdatedMs := nowMs }
  | .addPartitionsToTransaction _ _ partitions => txn.map fun txn =>
    { txn with
      partitions := txn.partitions ∪ partitions.toFinset
      state := txn.state.enroll
      lastUpdatedMs := nowMs }
  | .addOffsetsToTransaction _ _ groupId => txn.map fun txn =>
    { txn with
      groups := insert groupId txn.groups
      state := txn.state.enroll
      lastUpdatedMs := nowMs }
  | .prepareCommit _ _ => txn.map fun txn =>
    { txn with state := .prepareCommit, lastUpdatedMs := nowMs }
  | .prepareAbort _ _ => txn.map fun txn => { txn with state := .prepareAbort, lastUpdatedMs := nowMs }
  | .commitTransaction _ _ => txn.map fun txn =>
    { txn with state := .completeCommit, partitions := ∅, groups := ∅, lastUpdatedMs := nowMs }
  | .abortTransaction _ _ => txn.map fun txn =>
    { txn with state := .completeAbort, partitions := ∅, groups := ∅, lastUpdatedMs := nowMs }
  | .producerFenced newProducerId newProducerEpoch => txn.map fun txn =>
    { txn with
      producerId := newProducerId
      producerEpoch := newProducerEpoch
      lastUpdatedMs := nowMs }

/-- The transactions by their ids, and the counter for producer ids. -/
structure TransactionCoordinator where
  transactions : String → Option TransactionMetadata
  nextProducerId : Int

/-- `(node_id << 40) | 1`: every node counts from a base of its own. -/
def producerIdBase (nodeId : UInt64) : Int := ((nodeId.toBitVec <<< 40) ||| 1#64).toInt

namespace TransactionCoordinator

def new (nodeId : UInt64) : TransactionCoordinator := ⟨fun _ => none, producerIdBase nodeId⟩

def observeProducerId (c : TransactionCoordinator) (producerId : Int) : TransactionCoordinator :=
  { c with nextProducerId := max c.nextProducerId ((producerId + 1).bmod (2 ^ 64)) }

/-- `allocate_producer_id`, with the id that it returns. -/
def allocateProducerId (c : TransactionCoordinator) : Int × TransactionCoordinator :=
  (c.nextProducerId, { c with nextProducerId := (c.nextProducerId + 1).bmod (2 ^ 64) })

def apply (c : TransactionCoordinator) (transactionalId : String) (nowMs : Int) (e : TransactionEvent) :
    TransactionCoordinator :=
  let c := c.observeProducerId e.producerId
  { c with
    transactions := Function.update c.transactions transactionalId
      (e.apply transactionalId nowMs (c.transactions transactionalId)) }

variable {c : TransactionCoordinator} {tid : String} {nowMs : Int} {e : TransactionEvent}

@[simp]
theorem nextProducerId_apply :
    (c.apply tid nowMs e).nextProducerId = max c.nextProducerId ((e.producerId + 1).bmod (2 ^ 64)) := rfl

@[simp]
theorem transactions_apply_self :
    (c.apply tid nowMs e).transactions tid = e.apply tid nowMs (c.transactions tid) :=
  Function.update_self _ _ _

theorem transactions_apply_of_ne (h : tid' ≠ tid) :
    (c.apply tid nowMs e).transactions tid' = c.transactions tid' :=
  Function.update_of_ne h _ _

end TransactionCoordinator

end ChronikStream.Metadata
