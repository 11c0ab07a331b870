import ChronikStream.Metadata.InitProducerId

/-!
# The EndTxn request

`handle_end_txn_request` refuses a fenced producer; otherwise it prepares a commit, writes a marker
to every partition that was enrolled at the lookup, and finalizes. The answer is that of the last
write alone. A request is modelled by the phase that it is in.
-/

namespace ChronikStream.Metadata

/-- `write_and_apply`: an event whose append fails is not applied. -/
def TransactionCoordinator.writeAndApply (c : TransactionCoordinator) (e : LoggedTransaction)
    (ok : Bool) : TransactionCoordinator :=
  if ok then c.applyLogged e else c

theorem TransactionCoordinator.transactions_writeAndApply {c : TransactionCoordinator}
    (h : e.transactionalId = tid) (ok : Bool) :
    (c.writeAndApply e ok).transactions tid =
      if ok then e.event.apply tid e.timestampMs (c.transactions tid) else c.transactions tid := by
  subst h
  cases ok with
  | false => rfl
  | true => exact transactions_apply_self

structure EndTxnRequest where
  transactionalId : String
  producerId : Int
  producerEpoch : Int
  committed : Bool
  deriving DecidableEq

namespace EndTxnRequest

def prepareEvent (request : EndTxnRequest) (nowMs : Int) : LoggedTransaction :=
  ⟨request.transactionalId, nowMs, .prepareCommit request.producerId request.producerEpoch⟩

def finalEvent (request : EndTxnRequest) (nowMs : Int) : LoggedTransaction :=
  ⟨request.transactionalId, nowMs,
    if request.committed then .commitTransaction request.producerId request.producerEpoch
    else .abortTransaction request.producerId request.producerEpoch⟩

end EndTxnRequest

/-- Where an EndTxn request is. `partitions` are those that were enrolled at the lookup. -/
inductive EndPhase where
  | idle
  /-- A commit is about to be prepared. -/
  | preparing (request : EndTxnRequest) (partitions : Finset (String × Nat))
  /-- The markers of the partitions in `pending` are still to be written. -/
  | marking (request : EndTxnRequest) (partitions pending : Finset (String × Nat))
  | answered (request : EndTxnRequest) (partitions : Finset (String × Nat)) (errorCode : ErrorCode)
  deriving DecidableEq

namespace EndPhase

/-- The lookup. Nothing is to be done for an unknown id. -/
def lookup (c : TransactionCoordinator) (request : EndTxnRequest) : EndPhase :=
  match c.transactions request.transactionalId with
  | some txn =>
    if txn.IsFenced request.producerId request.producerEpoch then
      .answered request txn.partitions .invalidProducerEpoch
    else if request.committed then .preparing request txn.partitions
    else .marking request txn.partitions txn.partitions
  | none => .answered request ∅ .none

def finalized (request : EndTxnRequest) (partitions : Finset (String × Nat)) (ok : Bool) : EndPhase :=
  .answered request partitions (if ok then .none else .coordinatorNotAvailable)

def InProgress : EndPhase → Prop
  | .preparing .. | .marking .. => True
  | .idle | .answered .. => False

instance (phase : EndPhase) : Decidable phase.InProgress := by
  unfold InProgress
  split <;> infer_instance

end EndPhase

end ChronikStream.Metadata
