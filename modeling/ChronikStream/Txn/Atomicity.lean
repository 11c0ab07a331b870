import ChronikStream.Metadata.EndTxn
import ChronikStream.Txn.IndexReplay

/-!
# Transactions end atomically

The coordinator's enrolment and the markers are written separately, and any write may fail. The
outcome of the marker writes is not looked at, an enrolment that failed is answered as if it had
not, and a new initialisation loses the enrolment (`transaction_torn`). Without these
(`KeepsEnrolment`) an EndTxn without an error has its markers and leaves no open transaction
(`endTxn_atomic`).
-/

namespace ChronikStream

open Machine Metadata TxnReplica List Option TxnBatch TransactionCoordinator

variable {β : Type*}

/-! ## Logs -/

structure PartitionLog (β : Type*) where
  batches : List (TxnBatch β)
  ascending : OffsetRange.Ascending batches

namespace PartitionLog

variable {log : PartitionLog β} {b c : TxnBatch β} {p : Int} {m : TxnMarker}

def empty : PartitionLog β := ⟨[], .nil⟩

def place (log : PartitionLog β) (b : TxnBatch β) : TxnBatch β :=
  b.stamp (logEnd log.batches) b.epoch

theorem ascending_append (log : PartitionLog β) (b : TxnBatch β) :
    OffsetRange.Ascending (log.batches ++ [log.place b]) := by
  refine pairwise_concat.2 ⟨log.ascending, fun x hx => ?_⟩
  exact lastOffset_lt_logEnd log.ascending x hx

def append (log : PartitionLog β) (b : TxnBatch β) : PartitionLog β :=
  ⟨log.batches ++ [log.place b], log.ascending_append b⟩

/-- The producer has a record without a marker behind it. -/
def Undecided (log : PartitionLog β) (p : Int) : Prop :=
  ∃ b ∈ log.batches, (b.IsTxnData ∧ b.producerId = p) ∧ fate log.batches b = none
deriving Decidable

/-- There is a marker of the producer behind all its records. -/
def EndsWith (log : PartitionLog β) (p : Int) (m : TxnMarker) : Prop :=
  ∃ c ∈ log.batches, markerOf p c = some m ∧
    ∀ b ∈ log.batches, b.IsTxnData ∧ b.producerId = p → b.lastOffset < c.baseOffset
deriving Decidable

theorem undecided_append :
    (log.append b).Undecided p ↔
      (b.IsTxnData ∧ b.producerId = p) ∨ log.Undecided p ∧ markerOf p b = none := by
  have hasc := log.ascending_append b
  constructor
  · rintro ⟨x, hx, hdata, hfate⟩
    rcases mem_concat.1 hx with hx | rfl
    · rw [append, fate_concat hasc hx, hdata.2, or_eq_none_iff] at hfate
      exact .inr ⟨⟨x, hx, hdata, hfate.1⟩, hfate.2⟩
    · exact .inl hdata
  · rintro (hdata | ⟨⟨x, hx, hdata, hfate⟩, hmarker⟩)
    · exact ⟨log.place b, mem_concat_self, hdata, fate_concat_self hasc⟩
    · refine ⟨x, mem_append_left _ hx, hdata, ?_⟩
      rw [append, fate_concat hasc hx, hdata.2, hfate]
      exact hmarker

theorem endsWith_append (h : markerOf p c = some m) : (log.append c).EndsWith p m := by
  refine ⟨log.place c, mem_concat_self, h, fun b hb hdata => ?_⟩
  rcases mem_concat.1 hb with hb | rfl
  · exact lastOffset_lt_of_concat (log.ascending_append c) hb
  have hc : c.IsTxnData := hdata.1
  rw [markerOf_eq_none (marker_eq_none hc)] at h
  cases h

theorem not_undecided_append (h : markerOf p c = some m) : ¬ (log.append c).Undecided p := by
  rw [undecided_append]
  rintro (hdata | ⟨-, hnone⟩)
  · rw [markerOf_eq_none (marker_eq_none hdata.1)] at h
    cases h
  · rw [h] at hnone
    cases hnone

/-- The index has no open transaction of a producer without undecided records. -/
theorem ongoing_eq_none (h : ¬ log.Undecided p) :
    (PartitionTxnState.replay log.batches).ongoing.get? p = none := by
  rcases Int.lt_or_le p 0 with hp | hp
  · exact congrArg ProducerTxns.opened (PartitionTxnState.producer_replay_of_neg log.batches hp)
  rw [get?_ongoing_replay log.ascending hp, firstUndecided, map_eq_none_iff,
    head?_eq_none_iff, filter_eq_nil_iff]
  intro b hb hundecided
  obtain ⟨hdata, hpid, hfate⟩ := of_decide_eq_true hundecided
  exact h ⟨b, hb, ⟨hdata, hpid⟩, hfate⟩

end PartitionLog

/-! ## A producer and its coordinator -/

def TxnMarker.toInt : TxnMarker → Int
  | .abort => 0
  | .commit => 1

/-- The marker batch of the coordinator; the log gives it its offset. -/
def buildEndTxnMarker (producerId producerEpoch : Int) (marker : TxnMarker) : TxnBatch (List UInt8) where
  toBatch := .single 0 (-1)
    { key := some (Bytes.beInt 2 0 ++ Bytes.beInt 2 marker.toInt)
      value := Bytes.beInt 2 0 ++ Bytes.beInt 4 0 }
  producerId := producerId
  producerEpoch := producerEpoch
  baseSequence := 0
  isTransactional := true
  isControl := true

theorem markerOf_buildEndTxnMarker (producerId producerEpoch : Int) (marker : TxnMarker) :
    markerOf producerId (buildEndTxnMarker producerId producerEpoch marker) = some marker := by
  have htype : (buildEndTxnMarker producerId producerEpoch marker).controlType = some marker.toInt := by
    have hkey : Bytes.ofBeInt (Bytes.slice (Bytes.beInt 2 0 ++ Bytes.beInt 2 marker.toInt) 2 2) =
        marker.toInt := by
      cases marker <;> decide
    simp [controlType, buildEndTxnMarker, Batch.single, hkey]
  refine (buildEndTxnMarker producerId producerEpoch marker).markerOf_producerId.trans ?_
  rw [TxnBatch.marker, htype]
  cases marker <;> rfl

def Metadata.EndTxnRequest.marker (request : EndTxnRequest) : TxnMarker :=
  if request.committed then .commit else .abort

/-- `session` is the pair of the last InitProducerId, `enrolled` what AddPartitionsToTxn was
answered for. -/
structure TxnRun where
  coordinator : TransactionCoordinator
  logs : String × Nat → PartitionLog (List UInt8)
  session : Option (Int × Int)
  enrolled : Finset (String × Nat)
  ending : EndPhase

namespace TxnRun

/-- A step has the time of its event, and whether its write succeeds. -/
inductive Action where
  | initProducerId (timeoutMs nowMs : Int) (ok : Bool)
  | addPartitionsToTxn (partitions : List (String × Nat)) (nowMs : Int) (ok : Bool)
  | produce (partition : String × Nat) (batch : TxnBatch (List UInt8)) (ok : Bool)
  | endTxn (committed : Bool)
  | prepare (nowMs : Int) (ok : Bool)
  | writeMarker (partition : String × Nat) (ok : Bool)
  | finalize (nowMs : Int) (ok : Bool)

def acknowledge (s : TxnRun) : TxnRun :=
  { s with ending := if s.ending.InProgress then s.ending else .idle }

/-- An EndTxn request of the session that is answered without an error leaves nothing enrolled. -/
def setEnding (s : TxnRun) (phase : EndPhase) : TxnRun :=
  { s with
    ending := phase
    enrolled :=
      match phase with
      | .answered request _ .none =>
        if s.session = some (request.producerId, request.producerEpoch) then ∅ else s.enrolled
      | _ => s.enrolled }

def append (s : TxnRun) (partition : String × Nat) (batch : TxnBatch (List UInt8)) (ok : Bool) :
    TxnRun :=
  if ok then { s with logs := Function.update s.logs partition ((s.logs partition).append batch) } else s

@[simp] theorem logs_append_self {s : TxnRun} :
    (s.append p batch true).logs p = (s.logs p).append batch := Function.update_self _ _ _

theorem logs_append_of_ne {s : TxnRun}
    (h : q ≠ p) : (s.append p batch true).logs q = s.logs q := Function.update_of_ne h _ _

/-- The pair that an InitProducerId request is answered with. -/
def sessionOf : InitPhase → Option (Int × Int)
  | .answered producerId producerEpoch .none => some (producerId, producerEpoch)
  | _ => none

section
variable (tid : String) (s : TxnRun)

/-- The producer produces to partitions that it has enrolled, and has one EndTxn request at a time. -/
def step : Action → Option TxnRun
  | .initProducerId timeoutMs nowMs ok =>
    let (phase, c) := s.coordinator.initProducerId tid timeoutMs nowMs ok
    some { s.acknowledge with coordinator := c, session := sessionOf phase, enrolled := ∅ }
  | .addPartitionsToTxn partitions nowMs ok => s.session.map fun (producerId, producerEpoch) =>
    -- answered without an error, whether or not the event could be written
    { s.acknowledge with
      coordinator := s.coordinator.writeAndApply
        ⟨tid, nowMs, .addPartitionsToTransaction producerId producerEpoch partitions⟩ ok
      enrolled := s.enrolled ∪ partitions.toFinset }
  | .produce partition batch ok =>
    if s.session = some (batch.producerId, batch.producerEpoch) ∧ batch.IsTxnData ∧
        partition ∈ s.enrolled then
      some (s.acknowledge.append partition batch ok)
    else none
  | .endTxn committed =>
    if s.ending.InProgress then none
    else s.session.map fun (producerId, producerEpoch) =>
      s.setEnding (.lookup s.coordinator ⟨tid, producerId, producerEpoch, committed⟩)
  | .prepare nowMs ok =>
    match s.ending with
    | .preparing request partitions => some
      { s with
        coordinator := s.coordinator.writeAndApply (request.prepareEvent nowMs) ok
        ending := .marking request partitions partitions }
    | _ => none
  | .writeMarker partition ok =>
    match s.ending with
    | .marking request partitions pending =>
      if partition ∈ pending then
        let marker := buildEndTxnMarker request.producerId request.producerEpoch request.marker
        some { s.append partition marker ok with
          ending := .marking request partitions (pending.erase partition) }
      else none
    | _ => none
  | .finalize nowMs ok =>
    match s.ending with
    | .marking request partitions pending =>
      if pending = ∅ then
        some
          ({ s with coordinator := s.coordinator.writeAndApply (request.finalEvent nowMs) ok }.setEnding
            (.finalized request partitions ok))
      else none
    | _ => none

def machine (nodeId : UInt64) (tid : String) : Machine TxnRun Action where
  init := ⟨.new nodeId, fun _ => .empty, none, ∅, .idle⟩
  step := step tid

/-- An EndTxn request that was answered without an error has left its marker behind the records of every
partition that was enrolled. -/
def EndedAtomically : Prop :=
  ∀ request partitions, s.ending = .answered request partitions .none →
    ∀ p ∈ partitions, (s.logs p).EndsWith request.producerId request.marker

/-- It has left no open transaction of the producer in the index of any partition. -/
def Unblocked : Prop :=
  ∀ request partitions, s.ending = .answered request partitions .none →
    ∀ p, (PartitionTxnState.replay (s.logs p).batches).ongoing.get? request.producerId = none

/-- A partition with an undecided record is enrolled. -/
def UndecidedEnrolled : Prop :=
  ∀ p producerId, (s.logs p).Undecided producerId →
    ∃ txn ∈ s.coordinator.transactions tid, txn.producerId = producerId ∧ p ∈ txn.partitions

/-- Markers and enrolments are written, nothing runs during an EndTxn, and a producer is initialised
again only when its partitions are decided. -/
def KeepsEnrolment : Action → Prop
  | .initProducerId _ _ ok => ¬ s.ending.InProgress ∧ (ok = true →
    ∀ txn ∈ s.coordinator.transactions tid, ∀ p ∈ txn.partitions, ¬ (s.logs p).Undecided txn.producerId)
  | .addPartitionsToTxn _ _ ok => ¬ s.ending.InProgress ∧ ok = true
  | .produce .. => ¬ s.ending.InProgress
  | .writeMarker _ ok => ok = true
  | .endTxn _ | .prepare .. | .finalize .. => True

instance : DecidableRel (KeepsEnrolment tid) := fun _ _ => by
  unfold KeepsEnrolment
  split <;> infer_instance

end

/-! ## What a step keeps -/

variable {tid : String} {s s' : TxnRun} {a : Action} {request : EndTxnRequest}
  {partitions pending : Finset (String × Nat)} {p : String × Nat}

/-- The session's producer is bound, with the given partitions enrolled. -/
def Serves (tid : String) (s : TxnRun) (request : EndTxnRequest) (partitions : Finset (String × Nat)) :
    Prop :=
  request.transactionalId = tid ∧ s.session = some (request.producerId, request.producerEpoch) ∧
  ∃ txn ∈ s.coordinator.transactions tid, txn.producerId = request.producerId ∧
    txn.producerEpoch = request.producerEpoch ∧ txn.partitions = partitions

/-- The partitions that are not pending have their markers. -/
def EndingKept (tid : String) (s : TxnRun) : Prop :=
  match s.ending with
  | .idle => True
  | .preparing request partitions => s.Serves tid request partitions
  | .marking request partitions pending => s.Serves tid request partitions ∧
    ∀ p ∈ partitions, p ∉ pending →
      (s.logs p).EndsWith request.producerId request.marker ∧ ¬ (s.logs p).Undecided request.producerId
  | .answered request partitions errorCode => errorCode = .none →
    (∀ p ∈ partitions, (s.logs p).EndsWith request.producerId request.marker) ∧
    ∀ p, ¬ (s.logs p).Undecided request.producerId

/-- The session is bound, the coordinator has what the producer has enrolled, and every undecided
record is in an enrolled partition. -/
structure Kept (tid : String) (s : TxnRun) : Prop where
  bound : ∀ x ∈ s.session, ∃ txn ∈ s.coordinator.transactions tid,
    (txn.producerId, txn.producerEpoch) = x
  enrolled : ∀ txn ∈ s.coordinator.transactions tid, s.enrolled ⊆ txn.partitions
  undecided : s.UndecidedEnrolled tid
  ending : s.EndingKept tid

theorem endingKept_of_idle (h : s.ending = .idle) : s.EndingKept tid := by
  rw [EndingKept, h]
  trivial

/-- A registration binds the producer, keeps its id and enrols nothing; one that fails changes
nothing. -/
theorem initProducerId_cases (c : TransactionCoordinator) (tid : String) (timeoutMs nowMs : Int)
    (ok : Bool) :
    ∃ phase c', c.initProducerId tid timeoutMs nowMs ok = (phase, c') ∧
      ((ok = true ∧ ∃ txn ∈ c'.transactions tid,
          sessionOf phase = some (txn.producerId, txn.producerEpoch) ∧ txn.partitions = ∅ ∧
          ∀ old ∈ c.transactions tid, old.producerId = txn.producerId) ∨
        (ok = false ∧ sessionOf phase = none ∧ c'.transactions tid = c.transactions tid)) := by
  cases hentry : c.transactions tid <;> cases ok <;>
    simp [initProducerId, InitPhase.chooseProducer, hentry, sessionOf,
      InitPhase.appended, InitPhase.registered, applyLogged, registration,
      TransactionEvent.apply, LoggedTransaction.bound, allocateProducerId,
      TransactionMetadata.new]

section
variable (h : s.Kept tid)
include h

theorem Kept.initProducerId (hok : s.KeepsEnrolment tid (.initProducerId timeoutMs nowMs ok))
    (hstep : s.step tid (.initProducerId timeoutMs nowMs ok) = some s') : s'.Kept tid := by
  obtain ⟨phase, c', heq, hcases⟩ := initProducerId_cases s.coordinator tid timeoutMs nowMs ok
  simp only [step, heq] at hstep
  cases hstep
  rcases hcases with ⟨rfl, txn, htxn, hsession, hpartitions, hsame⟩ | ⟨rfl, hsession, hentry⟩
  · refine ⟨fun x hx => ⟨txn, htxn, ?_⟩, fun _ _ => Finset.empty_subset _, fun p producerId hp => ?_,
      endingKept_of_idle (if_neg hok.1)⟩
    · rw [hsession] at hx
      exact some.inj hx
    · obtain ⟨old, hold, rfl, hmem⟩ := h.undecided p producerId hp
      exact absurd hp (hok.2 rfl old hold p hmem)
  · refine ⟨fun x hx => ?_, fun _ _ => Finset.empty_subset _, fun p producerId hp => ?_,
      endingKept_of_idle (if_neg hok.1)⟩
    · rw [hsession] at hx
      cases hx
    · rw [hentry]
      exact h.undecided p producerId hp

theorem Kept.addPartitionsToTxn (hok : s.KeepsEnrolment tid (.addPartitionsToTxn ps nowMs ok))
    (hstep : s.step tid (.addPartitionsToTxn ps nowMs ok) = some s') : s'.Kept tid := by
  obtain ⟨hidle, rfl⟩ := hok
  obtain ⟨x, hsession, rfl⟩ := map_eq_some_iff.1 hstep
  obtain ⟨txn, htxn, hbound⟩ := h.bound x hsession
  -- the entry has the partitions beside those it had
  have hentry : (s.coordinator.writeAndApply ⟨tid, nowMs, .addPartitionsToTransaction x.1 x.2 ps⟩
      true).transactions tid = some { txn with
        partitions := txn.partitions ∪ ps.toFinset
        state := txn.state.enroll
        lastUpdatedMs := nowMs } := by
    rw [transactions_writeAndApply rfl, mem_def.1 htxn]
    rfl
  refine ⟨fun y hy => ⟨_, hentry, ?_⟩, fun txn' htxn' => ?_, fun p producerId hp => ?_,
    endingKept_of_idle (if_neg hidle)⟩
  · exact hbound.trans (some.inj (hsession.symm.trans hy))
  · cases hentry.symm.trans htxn'
    exact Finset.union_subset_union_left (h.enrolled txn htxn)
  · obtain ⟨old, hold, hpid, hmem⟩ := h.undecided p producerId hp
    cases htxn.symm.trans hold
    exact ⟨_, hentry, hpid, Finset.mem_union_left _ hmem⟩

theorem Kept.produce {batch : TxnBatch (List UInt8)}
    (hok : s.KeepsEnrolment tid (.produce p batch ok))
    (hstep : s.step tid (.produce p batch ok) = some s') : s'.Kept tid := by
  obtain ⟨⟨hsession, hdata, hmem⟩, rfl⟩ := of_guard hstep
  cases ok with
  | false => exact ⟨h.bound, h.enrolled, h.undecided, endingKept_of_idle (if_neg hok)⟩
  | true =>
  refine ⟨h.bound, h.enrolled, fun q producerId hq => ?_, endingKept_of_idle (if_neg hok)⟩
  by_cases hqp : q = p
  · subst hqp
    rw [logs_append_self, PartitionLog.undecided_append] at hq
    rcases hq with ⟨-, rfl⟩ | ⟨hq, -⟩
    · -- the producer has enrolled the partition
      obtain ⟨txn, htxn, hbound⟩ := h.bound _ hsession
      exact ⟨txn, htxn, congrArg Prod.fst hbound, h.enrolled txn htxn hmem⟩
    · exact h.undecided q producerId hq
  · rw [logs_append_of_ne hqp] at hq
    exact h.undecided q producerId hq

theorem Kept.endTxn (hstep : s.step tid (.endTxn committed) = some s') : s'.Kept tid := by
  obtain ⟨-, hstep⟩ := ite_none_left_eq_some.1 hstep
  obtain ⟨⟨producerId, producerEpoch⟩, hsession, rfl⟩ := map_eq_some_iff.1 hstep
  obtain ⟨txn, htxn, hbound⟩ := h.bound _ hsession
  have hpid : txn.producerId = producerId := congrArg Prod.fst hbound
  have hepoch : txn.producerEpoch = producerEpoch := congrArg Prod.snd hbound
  -- the session's producer is bound, so it is not fenced
  have hfenced : ¬ txn.IsFenced producerId producerEpoch := by
    rw [TransactionMetadata.IsFenced, hpid, hepoch]
    simp
  have hserves : s.Serves tid ⟨tid, producerId, producerEpoch, committed⟩ txn.partitions :=
    ⟨rfl, hsession, txn, htxn, hpid, hepoch, rfl⟩
  have hlookup : EndPhase.lookup s.coordinator ⟨tid, producerId, producerEpoch, committed⟩ =
      if committed then .preparing ⟨tid, producerId, producerEpoch, committed⟩ txn.partitions
      else .marking ⟨tid, producerId, producerEpoch, committed⟩ txn.partitions txn.partitions := by
    rw [EndPhase.lookup, mem_def.1 htxn]
    exact if_neg hfenced
  show Kept tid (s.setEnding (.lookup s.coordinator ⟨tid, producerId, producerEpoch, committed⟩))
  rw [hlookup]
  cases committed with
  | true => exact ⟨h.bound, h.enrolled, h.undecided, hserves⟩
  | false => exact ⟨h.bound, h.enrolled, h.undecided, hserves, fun p hp hpending => absurd hp hpending⟩

theorem Kept.prepare (hstep : s.step tid (.prepare nowMs ok) = some s') : s'.Kept tid := by
  rw [step] at hstep
  split at hstep
  case h_2 => cases hstep
  case h_1 request partitions hending =>
  cases hstep
  have hserves : s.Serves tid request partitions := by
    have hkept := h.ending
    rwa [EndingKept, hending] at hkept
  obtain ⟨htid, hsession, txn, htxn, hpid, hepoch, hpartitions⟩ := hserves
  -- the entry has the same producer and the same enrolment
  obtain ⟨txn', hentry, hpid', hepoch', hpartitions'⟩ : ∃ txn',
      (s.coordinator.writeAndApply (request.prepareEvent nowMs) ok).transactions tid = some txn' ∧
        txn'.producerId = txn.producerId ∧ txn'.producerEpoch = txn.producerEpoch ∧
        txn'.partitions = txn.partitions := by
    rw [transactions_writeAndApply (e := request.prepareEvent nowMs) htid, mem_def.1 htxn]
    cases ok with
    | false => exact ⟨txn, rfl, rfl, rfl, rfl⟩
    | true => exact ⟨_, rfl, rfl, rfl, rfl⟩
  refine ⟨fun x hx => ⟨txn', hentry, ?_⟩, fun t ht => ?_, fun p producerId hp => ?_,
    ⟨htid, hsession, txn', hentry, hpid'.trans hpid, hepoch'.trans hepoch,
      hpartitions'.trans hpartitions⟩,
    fun p hp hpending => absurd hp hpending⟩
  · rw [hpid', hepoch', hpid, hepoch]
    exact some.inj (hsession.symm.trans hx)
  · cases hentry.symm.trans ht
    rw [hpartitions']
    exact h.enrolled txn htxn
  · obtain ⟨old, hold, hold'⟩ := h.undecided p producerId hp
    cases htxn.symm.trans hold
    rw [← hpid', ← hpartitions'] at hold'
    exact ⟨txn', hentry, hold'⟩

theorem Kept.writeMarker (hstep : s.step tid (.writeMarker p true) = some s') : s'.Kept tid := by
  rw [step] at hstep
  split at hstep
  case h_2 => cases hstep
  case h_1 request partitions pending hending =>
  obtain ⟨hp, rfl⟩ := of_guard hstep
  have hkept := h.ending
  rw [EndingKept, hending] at hkept
  obtain ⟨hserves, hmarked⟩ := hkept
  have hmarker := markerOf_buildEndTxnMarker request.producerId request.producerEpoch request.marker
  refine ⟨h.bound, h.enrolled, fun q producerId hq => ?_, hserves, fun q hq hpending => ?_⟩
  · by_cases hqp : q = p
    · subst hqp
      rw [logs_append_self, PartitionLog.undecided_append] at hq
      rcases hq with ⟨hdata, -⟩ | ⟨hq, -⟩
      · cases hdata.2
      · exact h.undecided q producerId hq
    · rw [logs_append_of_ne hqp] at hq
      exact h.undecided q producerId hq
  · by_cases hqp : q = p
    · subst hqp
      rw [logs_append_self]
      exact ⟨PartitionLog.endsWith_append hmarker, PartitionLog.not_undecided_append hmarker⟩
    · rw [logs_append_of_ne hqp]
      exact hmarked q hq fun hmem => hpending (Finset.mem_erase.2 ⟨hqp, hmem⟩)

theorem Kept.finalize (hstep : s.step tid (.finalize nowMs ok) = some s') : s'.Kept tid := by
  rw [step] at hstep
  split at hstep
  case h_2 => cases hstep
  case h_1 request partitions pending hending =>
  obtain ⟨rfl, rfl⟩ := of_guard hstep
  have hkept := h.ending
  rw [EndingKept, hending] at hkept
  obtain ⟨⟨htid, hsession, txn, htxn, hpid, hepoch, hpartitions⟩, hmarked⟩ := hkept
  cases ok with
  | false =>
    refine ⟨h.bound, h.enrolled, h.undecided, fun herror => ?_⟩
    cases herror
  | true =>
  -- nothing is undecided: it would be enrolled, and the marker of every enrolled partition is there
  have hdecided : ∀ p producerId, ¬ (s.logs p).Undecided producerId := by
    intro p producerId hp
    obtain ⟨old, hold, rfl, hmem⟩ := h.undecided p producerId hp
    cases htxn.symm.trans hold
    rw [hpid] at hp
    exact (hmarked p (hpartitions ▸ hmem) (Finset.notMem_empty p)).2 hp
  obtain ⟨txn', hentry, hpid', hepoch'⟩ : ∃ txn',
      (s.coordinator.writeAndApply (request.finalEvent nowMs) true).transactions tid = some txn' ∧
        txn'.producerId = txn.producerId ∧ txn'.producerEpoch = txn.producerEpoch := by
    rw [transactions_writeAndApply (e := request.finalEvent nowMs) htid,
      mem_def.1 htxn, EndTxnRequest.finalEvent]
    cases request.committed with
    | true | false => exact ⟨_, rfl, rfl, rfl⟩
  refine ⟨fun x hx => ⟨txn', hentry, ?_⟩, fun t ht => ?_, fun p producerId hp => ?_, fun _ => ⟨?_, ?_⟩⟩
  · rw [hpid', hepoch', hpid, hepoch]
    exact some.inj (hsession.symm.trans hx)
  · simp [setEnding, EndPhase.finalized, hsession]
  · exact absurd hp (hdecided p producerId)
  · exact fun p hp => (hmarked p hp (Finset.notMem_empty p)).1
  · exact fun p => hdecided p request.producerId

theorem Kept.step (hok : s.KeepsEnrolment tid a) (hstep : s.step tid a = some s') :
    s'.Kept tid := by
  cases a with
  | initProducerId timeoutMs nowMs ok => exact h.initProducerId hok hstep
  | addPartitionsToTxn ps nowMs ok => exact h.addPartitionsToTxn hok hstep
  | produce p batch ok => exact h.produce hok hstep
  | endTxn committed => exact h.endTxn hstep
  | prepare nowMs ok => exact h.prepare hstep
  | writeMarker p ok =>
    obtain rfl : ok = true := hok
    exact h.writeMarker hstep
  | finalize nowMs ok => exact h.finalize hstep

end

theorem kept_init (nodeId : UInt64) : (machine nodeId tid).init.Kept tid where
  bound _ hx := by cases hx
  enrolled _ ht := by cases ht
  undecided _ _ hp := by
    obtain ⟨b, hb, -⟩ := hp
    cases hb
  ending := trivial

/-- A transaction ends with all its markers, and the partitions with undecided records are enrolled. -/
theorem endTxn_atomic {nodeId : UInt64} (h : Reaches (machine nodeId tid) (KeepsEnrolment tid) s) :
    s.EndedAtomically ∧ s.UndecidedEnrolled tid ∧ s.Unblocked := by
  have hkept : s.Kept tid := h.invariant (kept_init nodeId) fun s a s' hs hok hstep => hs.step hok hstep
  have hending := hkept.ending
  rw [EndingKept] at hending
  refine ⟨fun request partitions heq => ?_, hkept.undecided, fun request partitions heq p => ?_⟩
  · rw [heq] at hending
    exact (hending rfl).1
  · rw [heq] at hending
    exact PartitionLog.ongoing_eq_none ((hending rfl).2 p)

def firstRecord : TxnBatch (List UInt8) where
  toBatch := .single 0 0 ⟨none, [1]⟩
  producerId := 1
  producerEpoch := 0
  baseSequence := 0
  isTransactional := true
  isControl := false

def begun : List Action :=
  [.initProducerId 60000 0 true, .addPartitionsToTxn [("t", 0)] 0 true,
    .produce ("t", 0) firstRecord true]

/-- The first commit is not finalized, and the producer tries it again. -/
theorem endTxn_atomic_retried :
    ∃ s, Reaches (machine 0 "p") (KeepsEnrolment "p") s ∧
      s.ending = .answered ⟨"p", 1, 0, true⟩ {("t", 0)} .none ∧
      (s.EndedAtomically ∧ s.UndecidedEnrolled "p" ∧ s.Unblocked) :=
  exists_reaches_and (machine 0 "p") (KeepsEnrolment "p")
    (begun ++ ([.endTxn true, .prepare 0 true, .writeMarker ("t", 0) true, .finalize 0 false,
      .endTxn true, .prepare 0 false, .writeMarker ("t", 0) true, .finalize 0 true] : List Action))
    (by decide) fun _ hreaches => endTxn_atomic hreaches

/-- A marker fails and the commit is answered without an error; a producer initialised again leaves
a record undecided. -/
theorem transaction_torn :
    (¬ ∀ nodeId tid s, Reaches (machine nodeId tid) Always s → s.EndedAtomically) ∧
    ¬ ∀ nodeId tid s, Reaches (machine nodeId tid) Always s → s.UndecidedEnrolled tid := by
  constructor
  · intro h
    obtain ⟨s, hreaches, hending, hmarker⟩ := exists_reaches_of_run (machine 0 "p") Always
      (begun ++ [.endTxn true, .prepare 0 true, .writeMarker ("t", 0) false, .finalize 0 true])
      (fun s => s.ending = .answered ⟨"p", 1, 0, true⟩ {("t", 0)} .none ∧
        ¬ (s.logs ("t", 0)).EndsWith 1 .commit) (by decide)
    exact hmarker (h 0 "p" s hreaches _ _ hending ("t", 0) (Finset.mem_singleton_self _))
  · intro h
    obtain ⟨s, hreaches, hundecided, hnone⟩ := exists_reaches_of_run (machine 0 "p") Always
      (begun ++ [.initProducerId 60000 0 true])
      (fun s => (s.logs ("t", 0)).Undecided 1 ∧
        ∀ txn ∈ s.coordinator.transactions "p", ("t", 0) ∉ txn.partitions) (by decide)
    obtain ⟨txn, htxn, -, hmem⟩ := h 0 "p" s hreaches ("t", 0) 1 hundecided
    exact hnone txn htxn hmem

end TxnRun

end ChronikStream
