import ChronikStream.Lib.Slots
import ChronikStream.Txn.TransactionIndex

/-!
# Produce requests on the leader of a partition

`produce_to_partition` as the steps at which requests of one partition can interleave: reservation,
one round of the wait loop of `validate_producer_sequence`, the transaction index, the append and
the answer. A request that ends in an error leaves the effects of the steps it has taken.
-/

namespace ChronikStream

open Bytes Option

variable {β : Type*}

namespace TxnBatch

/-- The base offset and the leader epoch are assigned by the leader. -/
def stamp (b : TxnBatch β) (baseOffset epoch : Int) : TxnBatch β :=
  { b with baseOffset := baseOffset, epoch := epoch }

def Sequenced (b : TxnBatch β) : Prop :=
  0 ≤ b.producerId ∧ b.isControl = false
deriving Decidable

end TxnBatch

inductive ProduceError where
  | invalidProducerEpoch
  | invalidTransactionState
  | duplicateSequenceNumber
  | outOfOrderSequenceNumber
  | internal
  | notEnoughReplicas
  deriving DecidableEq

/-! ## Sequence validation -/

/-- What the broker remembers of a producer. `sequence` is the last sequence number it accepted for
the partition. -/
structure ProducerInfo where
  producerEpoch : Int
  sequence : Option Int
  transactionalId : Option String
  deriving DecidableEq

inductive SequenceCheck where
  | accepted
  | rejected (e : ProduceError)
  | waiting
  deriving DecidableEq

namespace ProducerInfo

variable (info : ProducerInfo) (b : TxnBatch β)

def expectedSequence : Int :=
  (info.sequence.map fun seq => wrap 4 (seq + 1)).getD 0

/-- A newer epoch resets the sequence. -/
def atEpoch (epoch : Int) : ProducerInfo :=
  if info.producerEpoch < epoch then { info with producerEpoch := epoch, sequence := none } else info

def checkSequence : ProducerInfo × SequenceCheck :=
  if b.baseSequence < info.expectedSequence then (info, .rejected .duplicateSequenceNumber)
  else if b.baseSequence = info.expectedSequence then
    ({ info with sequence := some (wrap 4 (b.baseSequence + b.records.length - 1)) }, .accepted)
  else (info, .waiting)

def checkTransactionalId (transactionalId : Option String) : ProducerInfo × SequenceCheck :=
  match transactionalId, info.transactionalId with
  | some id, some existing =>
    if existing ≠ id then (info, .rejected .invalidTransactionState) else info.checkSequence b
  | some id, none => { info with transactionalId := some id }.checkSequence b
  | none, _ => info.checkSequence b

def check (transactionalId : Option String) : ProducerInfo × SequenceCheck :=
  if b.producerEpoch < info.producerEpoch then (info, .rejected .invalidProducerEpoch)
  else (info.atEpoch b.producerEpoch).checkTransactionalId b transactionalId

end ProducerInfo

abbrev ProducerTable := OrderedMap Int ProducerInfo

namespace ProducerTable

/-- The entry of a batch's producer, which its first batch creates. -/
def entry (producers : ProducerTable) (b : TxnBatch β) (transactionalId : Option String) :
    ProducerInfo :=
  (producers.get? b.producerId).getD ⟨b.producerEpoch, none, transactionalId⟩

/-- One round of the loop of `validate_producer_sequence`, with idempotence enabled. -/
def validateProducerSequence (producers : ProducerTable) (b : TxnBatch β)
    (transactionalId : Option String) : ProducerTable × SequenceCheck :=
  let (info, result) := (producers.entry b transactionalId).check b transactionalId
  (producers.upsert b.producerId fun _ => info, result)

/-- The sequence number the broker expects next from a producer. -/
def expectedSequence (producers : ProducerTable) (producerId : Int) : Int :=
  ((producers.get? producerId).map (·.expectedSequence)).getD 0

end ProducerTable

/-! ## Requests -/

inductive ProduceStage where
  | reserved
  | validated
  | indexed
  deriving DecidableEq

/-- A request that has reserved its offsets. `expected` is ghost state: the sequence expected at its
arrival. -/
structure ProduceRequest (β : Type*) where
  batch : TxnBatch β
  transactionalId : Option String
  stage : ProduceStage
  expected : Int

/-- An answer, as ghost state: the error, and the sequences expected at arrival and at the answer.
-/
structure ProduceAnswer (β : Type*) where
  batch : TxnBatch β
  error : Option ProduceError
  before : Int
  after : Int

/-- The ways an append ends. A written batch is unacknowledged when a wait behind it ends in an
error. -/
inductive AppendOutcome where
  | acknowledged
  | unacknowledged
  | failed
  deriving DecidableEq

/-- What the produce requests of a partition share. -/
structure LeaderPartition (β : Type*) where
  nextOffset : Int
  producers : ProducerTable
  index : PartitionTxnState
  log : List (TxnBatch β)
  inFlight : List (ProduceRequest β)
  answers : List (ProduceAnswer β)

namespace LeaderPartition

variable (s : LeaderPartition β)

def empty : LeaderPartition β := ⟨0, .empty, .empty, [], [], []⟩

/-- A request reserves its offsets. Batches without a sequence skip the validation. -/
def request (batch : TxnBatch β) (transactionalId : Option String)
    (leaderEpoch : Int) : LeaderPartition β :=
  { s with
    nextOffset := s.nextOffset + batch.records.length
    inFlight := s.inFlight ++ [{
      batch := batch.stamp s.nextOffset leaderEpoch
      transactionalId := transactionalId
      stage := if batch.Sequenced then .reserved else .validated
      expected := s.producers.expectedSequence batch.producerId }] }

def answer (i : Nat) (r : ProduceRequest β) (error : Option ProduceError) : LeaderPartition β :=
  { s with
    inFlight := s.inFlight.eraseIdx i
    answers := s.answers ++
      [⟨r.batch, error, r.expected, s.producers.expectedSequence r.batch.producerId⟩] }

def moveTo (i : Nat) (r : ProduceRequest β) (stage : ProduceStage) : LeaderPartition β :=
  { s with inFlight := s.inFlight.set i { r with stage := stage } }

/-- The `i`-th request in flight, when it has come to a stage. -/
def atStage (i : Nat) (stage : ProduceStage) : Option (ProduceRequest β) :=
  s.inFlight[i]?.filter (·.stage = stage)

/-- One round of the validation loop; `expired` says that its deadline has passed. -/
def validate (i : Nat) (expired : Bool) : Option (LeaderPartition β) :=
  (s.atStage i .reserved).map fun r =>
    let (producers, result) := s.producers.validateProducerSequence r.batch r.transactionalId
    let s := { s with producers := producers }
    match result with
    | .accepted => s.moveTo i r .validated
    | .rejected e => s.answer i r (some e)
    | .waiting => if expired then s.answer i r (some .outOfOrderSequenceNumber) else s

def applyIndex (i : Nat) : Option (LeaderPartition β) :=
  (s.atStage i .validated).map fun r =>
    { s with index := s.index.applyLogBatch r.batch }.moveTo i r .indexed

def append (i : Nat) (outcome : AppendOutcome) : Option (LeaderPartition β) :=
  (s.atStage i .indexed).map fun r =>
    match outcome with
    | .acknowledged => { s with log := s.log ++ [r.batch] }.answer i r none
    | .unacknowledged => { s with log := s.log ++ [r.batch] }.answer i r (some .notEnoughReplicas)
    | .failed => s.answer i r (some .internal)

end LeaderPartition

inductive ProduceAction (β : Type*) where
  | request (batch : TxnBatch β) (transactionalId : Option String) (leaderEpoch : Int)
  | validate (i : Nat) (expired : Bool)
  | applyIndex (i : Nat)
  | append (i : Nat) (outcome : AppendOutcome)

def LeaderPartition.step (s : LeaderPartition β) : ProduceAction β → Option (LeaderPartition β)
  | .request batch transactionalId leaderEpoch => some (s.request batch transactionalId leaderEpoch)
  | .validate i expired => s.validate i expired
  | .applyIndex i => s.applyIndex i
  | .append i outcome => s.append i outcome

/-! ## What a step can do -/

namespace LeaderPartition

variable {s s' : LeaderPartition β} {i : Nat}

/-- A request in flight, and what the others are when it moves on or is answered. -/
theorem exists_split_of_atStage (h : s.atStage i stage = some r) :
    r.stage = stage ∧ ∃ front back, s.inFlight = front ++ r :: back ∧ front.length = i ∧
      (∀ r', s.inFlight.set i r' = front ++ r' :: back) ∧ s.inFlight.eraseIdx i = front ++ back := by
  obtain ⟨hget, hstage⟩ := filter_eq_some_iff.1 h
  obtain ⟨hi, -⟩ := List.getElem?_eq_some_iff.1 hget
  obtain ⟨front, back, hsplit, rfl, hset, herase⟩ := Slots.exists_split hget
  refine ⟨of_decide_eq_true hstage, _, back, hsplit, ?_, hset, herase⟩
  rw [List.length_take, min_eq_left (le_of_lt hi)]

/-- A validation round advances the sequence, answers the request with an error, or changes nothing
but the producer's entry. -/
theorem validate_cases (h : s.validate i expired = some s') :
    ∃ front r back, s.inFlight = front ++ r :: back ∧ front.length = i ∧ r.stage = .reserved ∧
      ∃ producers result,
        s.producers.validateProducerSequence r.batch r.transactionalId = (producers, result) ∧
        ((result = .accepted ∧ s' = { s with
            producers := producers
            inFlight := front ++ { r with stage := .validated } :: back }) ∨
          (∃ e, (result = .rejected e ∨
              result = .waiting ∧ expired = true ∧ e = .outOfOrderSequenceNumber) ∧
            s' = { s with
              producers := producers
              inFlight := front ++ back
              answers := s.answers ++ [⟨r.batch, some e, r.expected,
                producers.expectedSequence r.batch.producerId⟩] }) ∨
          (result = .waiting ∧ expired = false ∧ s' = { s with producers := producers })) := by
  obtain ⟨r, hr, rfl⟩ := map_eq_some_iff.1 h
  obtain ⟨hstage, front, back, hsplit, hlen, hset, herase⟩ := exists_split_of_atStage hr
  refine ⟨front, r, back, hsplit, hlen, hstage, ?_⟩
  generalize s.producers.validateProducerSequence r.batch r.transactionalId = v
  obtain ⟨producers, result⟩ := v
  refine ⟨producers, result, rfl, ?_⟩
  cases result with
  | accepted =>
    refine .inl ⟨rfl, ?_⟩
    dsimp only [moveTo]
    rw [hset]
  | rejected e =>
    refine .inr (.inl ⟨e, .inl rfl, ?_⟩)
    dsimp only [answer]
    rw [herase]
  | waiting =>
    dsimp only
    split
    case isTrue hexpired =>
      refine .inr (.inl ⟨_, .inr ⟨rfl, hexpired, rfl⟩, ?_⟩)
      rw [answer, herase]
    case isFalse hexpired => exact .inr (.inr ⟨rfl, Bool.eq_false_of_not_eq_true hexpired, rfl⟩)

theorem applyIndex_cases (h : s.applyIndex i = some s') :
    ∃ front r back, s.inFlight = front ++ r :: back ∧ front.length = i ∧ r.stage = .validated ∧
      s' = { s with
        index := s.index.applyLogBatch r.batch
        inFlight := front ++ { r with stage := .indexed } :: back } := by
  obtain ⟨r, hr, rfl⟩ := map_eq_some_iff.1 h
  obtain ⟨hstage, front, back, hsplit, hlen, hset, -⟩ := exists_split_of_atStage hr
  refine ⟨front, r, back, hsplit, hlen, hstage, ?_⟩
  rw [moveTo, hset]

theorem append_cases (h : s.append i outcome = some s') :
    ∃ front r back error, s.inFlight = front ++ r :: back ∧ front.length = i ∧
      r.stage = .indexed ∧
      s' = { s with
        log := if outcome = .failed then s.log else s.log ++ [r.batch]
        inFlight := front ++ back
        answers := s.answers ++
          [⟨r.batch, error, r.expected, s.producers.expectedSequence r.batch.producerId⟩] } ∧
      (error = none ↔ outcome = .acknowledged) ∧ error ≠ some .duplicateSequenceNumber := by
  obtain ⟨r, hr, rfl⟩ := map_eq_some_iff.1 h
  obtain ⟨hstage, front, back, hsplit, hlen, -, herase⟩ := exists_split_of_atStage hr
  cases outcome with
  | acknowledged =>
    refine ⟨front, r, back, none, hsplit, hlen, hstage, ?_, by decide, by decide⟩
    dsimp only [answer]
    rw [herase]
    rfl
  | unacknowledged =>
    refine ⟨front, r, back, some .notEnoughReplicas, hsplit, hlen, hstage, ?_, by decide, by decide⟩
    dsimp only [answer]
    rw [herase]
    rfl
  | failed =>
    refine ⟨front, r, back, some .internal, hsplit, hlen, hstage, ?_, by decide, by decide⟩
    dsimp only [answer]
    rw [herase]
    rfl

end LeaderPartition

end ChronikStream
