import ChronikStream.Lib.Run
import ChronikStream.Metadata.EndTxn
import ChronikStream.Metadata.Store

/-!
# Fencing of superseded producers

Of the requests that carry a producer id and epoch only EndTxn compares them, with the bound epoch.
In runs in which each registration binds the next epoch (`NextEpoch`: no overlapping calls, no wrap
after 32767) a superseded pair is rejected exactly there (`superseded_rejected_iff`); in general
nowhere (`superseded_accepted`).
-/

namespace ChronikStream.Metadata

open Machine List Option Function TransactionCoordinator

inductive RequestKind where
  | addPartitionsToTxn
  | txnOffsetCommit
  | endTxn
  deriving DecidableEq

/-- The requests of a transactional producer. An offset is a topic, a partition, the offset and its
metadata. -/
inductive TxnRequest where
  | addPartitionsToTxn (producerId producerEpoch : Int) (partitions : List (String × Nat))
  | txnOffsetCommit (producerId producerEpoch : Int) (groupId : String)
    (offsets : List (String × Nat × Int × Option String))
  | endTxn (producerId producerEpoch : Int) (committed : Bool)

namespace TxnRequest

def pair : TxnRequest → Int × Int
  | .addPartitionsToTxn producerId producerEpoch _ | .txnOffsetCommit producerId producerEpoch ..
  | .endTxn producerId producerEpoch _ => (producerId, producerEpoch)

def kind : TxnRequest → RequestKind
  | .addPartitionsToTxn .. => .addPartitionsToTxn
  | .txnOffsetCommit .. => .txnOffsetCommit
  | .endTxn .. => .endTxn

end TxnRequest

/-- The event that an InitProducerId request is about to apply. -/
def InitPhase.toApply : InitPhase → Option LoggedTransaction
  | .applying e => some e
  | _ => none

theorem InitPhase.toApply_eq_some {phase : InitPhase} :
    phase.toApply = some e ↔ phase = .applying e := by
  cases phase <;> simp [toApply]

/-- A coordinator, the committed offsets and the requests in flight. The pairs returned are ghost
state. -/
structure TxnServer where
  coordinator : TransactionCoordinator
  consumerOffsets : String × String × Nat → Option ConsumerOffset
  inits : Nat → InitPhase
  ends : Nat → EndPhase
  handedOut : List (Int × Int)

namespace TxnServer

variable {tid : String} {nodeId : UInt64}

section
variable (tid : String) (s : TxnServer)

def setInit (i : Nat) (phase : InitPhase) : TxnServer :=
  { s with inits := update s.inits i phase }

def setEnd (j : Nat) (phase : EndPhase) : TxnServer :=
  { s with ends := update s.ends j phase }

def commitOffset (nowMs : Int) (groupId : String) (s : TxnServer) :
    String × Nat × Int × Option String → TxnServer
  | (topic, partition, offset, metadata) =>
    let committed : ConsumerOffset := ⟨groupId, topic, partition, offset, metadata, nowMs⟩
    { s with consumerOffsets := update s.consumerOffsets committed.key (some committed) }

/-- What a request does when it arrives, with its code; an EndTxn that is not refused is answered
later. The first write that fails ends the commit of offsets. -/
def handle (j : Nat) (nowMs : Int) (written : Nat) : TxnRequest → TxnServer × Option ErrorCode
  | .addPartitionsToTxn producerId producerEpoch partitions =>
    let e := ⟨tid, nowMs, .addPartitionsToTransaction producerId producerEpoch partitions⟩
    ({ s with coordinator := s.coordinator.writeAndApply e (0 < written) }, some .none)
  | .txnOffsetCommit _ _ groupId offsets =>
    ((offsets.take written).foldl (commitOffset nowMs groupId) s, some .none)
  | .endTxn producerId producerEpoch committed =>
    let phase := EndPhase.lookup s.coordinator ⟨tid, producerId, producerEpoch, committed⟩
    (s.setEnd j phase, match phase with | .answered _ _ errorCode => some errorCode | _ => none)

inductive Action where
  | lookup (i : Nat)
  | chooseProducer (i : Nat) (timeoutMs nowMs : Int)
  | append (i : Nat) (ok : Bool)
  | apply (i : Nat)
  | request (j : Nat) (r : TxnRequest) (nowMs : Int) (written : Nat)
  | prepare (j : Nat) (nowMs : Int) (ok : Bool)
  | writeMarker (j : Nat) (partition : String × Nat)
  | finalize (j : Nat) (nowMs : Int) (ok : Bool)

def step : Action → Option TxnServer
  | .lookup i =>
    match s.inits i with
    | .idle => some (s.setInit i (.found tid (s.coordinator.transactions tid)))
    | _ => none
  | .chooseProducer i timeoutMs nowMs =>
    match s.inits i with
    | .found _ existing =>
      let (phase, c) := InitPhase.chooseProducer s.coordinator tid existing timeoutMs nowMs
      some ({ s with coordinator := c }.setInit i phase)
    | _ => none
  | .append i ok =>
    match s.inits i with
    | .registering e failedEpoch => some (s.setInit i (.appended e failedEpoch ok))
    | _ => none
  | .apply i => (s.inits i).toApply.map fun e =>
    { s with
      coordinator := s.coordinator.applyLogged e
      handedOut := s.handedOut ++ [e.bound] }.setInit i (.registered e)
  | .request j r nowMs written =>
    if (s.ends j).InProgress then none else some (s.handle tid j nowMs written r).1
  | .prepare j nowMs ok =>
    match s.ends j with
    | .preparing request partitions => some
      ({ s with coordinator := s.coordinator.writeAndApply (request.prepareEvent nowMs) ok }.setEnd j
        (.marking request partitions partitions))
    | _ => none
  | .writeMarker j partition =>
    match s.ends j with
    | .marking request partitions pending =>
      if partition ∈ pending then
        some (s.setEnd j (.marking request partitions (pending.erase partition)))
      else none
    | _ => none
  | .finalize j nowMs ok =>
    match s.ends j with
    | .marking request partitions pending =>
      if pending = ∅ then
        some
          ({ s with coordinator := s.coordinator.writeAndApply (request.finalEvent nowMs) ok }.setEnd j
            (.finalized request partitions ok))
      else none
    | _ => none

def machine (nodeId : UInt64) (tid : String) : Machine TxnServer Action where
  init := ⟨.new nodeId, fun _ => none, fun _ => .idle, fun _ => .idle, []⟩
  step := step tid

/-- A pair that was handed out before the last one. -/
def Superseded (pair : Int × Int) : Prop := pair ∈ s.handedOut.dropLast
deriving Decidable

/-- The request is answered with an error and changes neither the entry nor a committed offset. -/
def Rejected (r : TxnRequest) : Prop :=
  ∀ j nowMs written, (∃ errorCode ∈ (s.handle tid j nowMs written r).2, errorCode ≠ .none) ∧
    (s.handle tid j nowMs written r).1.coordinator.transactions tid = s.coordinator.transactions tid ∧
    (s.handle tid j nowMs written r).1.consumerOffsets = s.consumerOffsets

/-- A registration that is applied binds the next epoch of the bound producer. -/
def NextEpoch : Action → Prop
  | .apply i => ∀ e ∈ (s.inits i).toApply, ∀ txn ∈ s.coordinator.transactions tid,
    e.bound = (txn.producerId, txn.producerEpoch + 1)
  | _ => True

instance : DecidableRel (NextEpoch tid) := fun _ _ => by
  unfold NextEpoch
  split <;> infer_instance

end

/-! ## The bound pair -/

end TxnServer

def TransactionCoordinator.boundPair (c : TransactionCoordinator) (tid : String) : Option (Int × Int) :=
  (c.transactions tid).map fun txn => (txn.producerId, txn.producerEpoch)

/-- The event binds a producer. -/
def TransactionEvent.Rebinds : TransactionEvent → Prop
  | .beginTransaction .. | .producerFenced .. => True
  | _ => False

theorem boundPair_writeAndApply {c : TransactionCoordinator}
    (htid : e.transactionalId = tid) (h : ¬ e.event.Rebinds) (ok : Bool) :
    (c.writeAndApply e ok).boundPair tid = c.boundPair tid := by
  rw [boundPair, transactions_writeAndApply htid, boundPair]
  cases ok with
  | false => rfl
  | true =>
  cases hevent : e.event with
  | beginTransaction | producerFenced =>
    rw [hevent] at h
    exact absurd trivial h
  | _ => cases c.transactions tid <;> rfl

theorem boundPair_registration (c : TransactionCoordinator) (tid : String)
    (producerId producerEpoch timeoutMs nowMs : Int) :
    (c.applyLogged (registration tid producerId producerEpoch timeoutMs nowMs)).boundPair tid =
      some (producerId, producerEpoch) :=
  congrArg (Option.map _) transactions_apply_self

namespace TxnServer

variable {s s' : TxnServer} {a : Action} {r : TxnRequest}

theorem foldl_commitOffset (nowMs : Int) (groupId : String)
    (offsets : List (String × Nat × Int × Option String)) :
    ∃ consumerOffsets, offsets.foldl (commitOffset nowMs groupId) s =
      { s with consumerOffsets := consumerOffsets } := by
  induction offsets generalizing s with
  | nil => exact ⟨s.consumerOffsets, rfl⟩
  | cons offset offsets ih =>
    obtain ⟨consumerOffsets, h⟩ := ih (s := commitOffset nowMs groupId s offset)
    exact ⟨consumerOffsets, h⟩

/-! ## Runs of next epochs -/

/-- What the InitProducerId request is about to register is for the transactional id. -/
def Registers (tid : String) : InitPhase → Prop
  | .registering e _ | .applying e => ∃ producerId producerEpoch timeoutMs nowMs,
    e = registration tid producerId producerEpoch timeoutMs nowMs
  | _ => True

def Ends (tid : String) : EndPhase → Prop
  | .preparing request _ | .marking request .. => request.transactionalId = tid
  | _ => True

/-- The epochs that were handed out ascend up to the bound one. -/
structure EpochsAscend (tid : String) (s : TxnServer) : Prop where
  ascending : s.handedOut.Pairwise fun a b => a.1 = b.1 ∧ a.2 < b.2
  bound : s.handedOut.getLast? = s.coordinator.boundPair tid
  registers : ∀ i, Registers tid (s.inits i)
  ends : ∀ j, Ends tid (s.ends j)

section
variable (h : s.EpochsAscend tid)
include h

theorem EpochsAscend.setInit (hphase : Registers tid phase) : (s.setInit i phase).EpochsAscend tid := by
  refine { h with registers := ?_ }
  exact (forall_update_iff s.inits fun _ phase => Registers tid phase).2
    ⟨hphase, fun k _ => h.registers k⟩

theorem EpochsAscend.setEnd (hphase : Ends tid phase) : (s.setEnd j phase).EpochsAscend tid := by
  refine { h with ends := ?_ }
  exact (forall_update_iff s.ends fun _ phase => Ends tid phase).2 ⟨hphase, fun k _ => h.ends k⟩

theorem EpochsAscend.writeAndApply {e : LoggedTransaction}
    (htid : e.transactionalId = tid) (he : ¬ e.event.Rebinds) (ok : Bool) :
    EpochsAscend tid { s with coordinator := s.coordinator.writeAndApply e ok } :=
  { h with bound := h.bound.trans (boundPair_writeAndApply htid he ok).symm }

theorem EpochsAscend.chooseProducer (i : Nat)
    (existing : Option TransactionMetadata) (timeoutMs nowMs : Int) :
    EpochsAscend tid ({ s with
        coordinator := (InitPhase.chooseProducer s.coordinator tid existing timeoutMs nowMs).2 }.setInit
        i (InitPhase.chooseProducer s.coordinator tid existing timeoutMs nowMs).1) := by
  -- the entries are as they were: an allocation only moves the counter
  have hchosen : EpochsAscend tid
      { s with
        coordinator := (InitPhase.chooseProducer s.coordinator tid existing timeoutMs nowMs).2 } := by
    refine { h with bound := h.bound.trans ?_ }
    cases existing <;> rfl
  refine hchosen.setInit ?_
  cases existing with
  | some | none => exact ⟨_, _, _, _, rfl⟩

/-- The pair that a registration hands out follows all the others. -/
theorem EpochsAscend.apply (he : s.inits i = .applying e)
    (hnext : ∀ txn ∈ s.coordinator.transactions tid, e.bound = (txn.producerId, txn.producerEpoch + 1)) :
    EpochsAscend tid { s with
      coordinator := s.coordinator.applyLogged e
      handedOut := s.handedOut ++ [e.bound] } := by
  have hregisters := h.registers i
  rw [he] at hregisters
  obtain ⟨producerId, producerEpoch, timeoutMs, nowMs, rfl⟩ := hregisters
  refine { h with ascending := ?_, bound := ?_ }
  · refine pairwise_concat.2 ⟨h.ascending, fun x hx => ?_⟩
    -- the bound pair is the last one, and every other is below it
    obtain ⟨front, last, hfront⟩ : ∃ front last, s.handedOut = front ++ [last] :=
      ⟨_, _, (dropLast_append_getLast (ne_nil_of_mem hx)).symm⟩
    have hbound := h.bound
    rw [hfront, getLast?_concat] at hbound
    obtain ⟨txn, htxn, rfl⟩ := map_eq_some_iff.1 hbound.symm
    have hle : x.1 = txn.producerId ∧ x.2 ≤ txn.producerEpoch := by
      have hascending := h.ascending
      rw [hfront] at hx hascending
      rcases mem_concat.1 hx with hx | rfl
      · have hlt := (pairwise_append.1 hascending).2.2 x hx _ (.head _)
        exact ⟨hlt.1, le_of_lt hlt.2⟩
      · exact ⟨rfl, le_refl _⟩
    rw [hnext txn htxn]
    exact ⟨hle.1, Int.lt_add_one_of_le hle.2⟩
  · rw [getLast?_concat]
    exact (boundPair_registration _ tid producerId producerEpoch timeoutMs nowMs).symm

end

theorem ends_lookup (c : TransactionCoordinator) (producerId producerEpoch : Int) (committed : Bool) :
    Ends tid (.lookup c ⟨tid, producerId, producerEpoch, committed⟩) := by
  rw [EndPhase.lookup]
  split
  · split
    · trivial
    · cases committed <;> exact rfl
  · trivial

theorem EpochsAscend.handle (h : s.EpochsAscend tid) (j : Nat) (nowMs : Int) (written : Nat)
    (r : TxnRequest) : (s.handle tid j nowMs written r).1.EpochsAscend tid := by
  cases r with
  | addPartitionsToTxn producerId producerEpoch partitions => exact h.writeAndApply rfl id _
  | txnOffsetCommit producerId producerEpoch groupId offsets =>
    obtain ⟨consumerOffsets, heq⟩ := foldl_commitOffset nowMs groupId (offsets.take written) (s := s)
    rw [TxnServer.handle, heq]
    exact { h with }
  | endTxn producerId producerEpoch committed => exact h.setEnd (ends_lookup _ _ _ _)

theorem EpochsAscend.step (h : s.EpochsAscend tid) (hok : s.NextEpoch tid a)
    (hstep : s.step tid a = some s') : s'.EpochsAscend tid := by
  cases a with simp only [TxnServer.step] at hstep
  | lookup i =>
    split at hstep <;> cases hstep
    exact h.setInit trivial
  | chooseProducer i timeoutMs nowMs =>
    split at hstep <;> cases hstep
    exact h.chooseProducer i _ timeoutMs nowMs
  | append i ok =>
    split at hstep <;> cases hstep
    rename_i e failedEpoch hphase
    have hregisters := h.registers i
    rw [hphase] at hregisters
    cases ok with
    | true => exact h.setInit hregisters
    | false => exact h.setInit trivial
  | apply i =>
    obtain ⟨e, he, rfl⟩ := map_eq_some_iff.1 hstep
    exact (h.apply (InitPhase.toApply_eq_some.1 he) (hok e he)).setInit trivial
  | request j r nowMs written =>
    obtain ⟨-, rfl⟩ := of_not_guard hstep
    exact h.handle j nowMs written r
  | prepare j nowMs ok =>
    split at hstep <;> cases hstep
    rename_i request partitions hphase
    have hends := h.ends j
    rw [hphase] at hends
    exact (h.writeAndApply (e := request.prepareEvent nowMs) hends id ok).setEnd hends
  | writeMarker j partition =>
    split at hstep
    case h_1 request partitions pending hphase =>
      obtain ⟨-, rfl⟩ := of_guard hstep
      have hends := h.ends j
      rw [hphase] at hends
      exact h.setEnd hends
    case h_2 => cases hstep
  | finalize j nowMs ok =>
    split at hstep
    case h_1 request partitions pending hphase =>
      obtain ⟨-, rfl⟩ := of_guard hstep
      have hends := h.ends j
      rw [hphase] at hends
      have hevent : ¬ (request.finalEvent nowMs).event.Rebinds := by
        rw [EndTxnRequest.finalEvent]
        cases request.committed <;> exact id
      exact (h.writeAndApply (e := request.finalEvent nowMs) hends hevent ok).setEnd trivial
    case h_2 => cases hstep

theorem epochsAscend_init : (machine nodeId tid).init.EpochsAscend tid where
  ascending := .nil
  bound := rfl
  registers _ := trivial
  ends _ := trivial

theorem EpochsAscend.fenced (h : s.EpochsAscend tid) (hpair : s.Superseded pair) :
    ∃ txn ∈ s.coordinator.transactions tid, txn.IsFenced pair.1 pair.2 := by
  have hne : s.handedOut ≠ [] := ne_nil_of_mem (mem_of_mem_dropLast hpair)
  have hsplit := dropLast_append_getLast hne
  have hascending := h.ascending
  rw [← hsplit] at hascending
  have hlt := (pairwise_append.1 hascending).2.2 pair hpair _ (.head _)
  have hbound := h.bound
  rw [← hsplit, getLast?_concat] at hbound
  obtain ⟨txn, htxn, heq⟩ := map_eq_some_iff.1 hbound.symm
  rw [← heq] at hlt
  exact ⟨txn, htxn, .inr hlt.2⟩

/-- A request with a superseded pair is rejected exactly if it is an EndTxn. -/
theorem superseded_rejected_iff (h : Reaches (machine nodeId tid) (NextEpoch tid) s)
    (hpair : s.Superseded r.pair) : s.Rejected tid r ↔ r.kind = .endTxn := by
  have hascend : s.EpochsAscend tid :=
    h.invariant epochsAscend_init fun s a s' hs hok hstep => hs.step hok hstep
  cases r with
  | addPartitionsToTxn | txnOffsetCommit =>
    refine iff_of_false (fun hrejected => ?_) (by simp [TxnRequest.kind])
    obtain ⟨⟨errorCode, hcode, hne⟩, -⟩ := hrejected 0 0 0
    exact hne (some.inj hcode).symm
  | endTxn producerId producerEpoch committed =>
    obtain ⟨txn, htxn, hfenced⟩ := hascend.fenced hpair
    have hlookup : EndPhase.lookup s.coordinator ⟨tid, producerId, producerEpoch, committed⟩ =
        .answered ⟨tid, producerId, producerEpoch, committed⟩ txn.partitions .invalidProducerEpoch := by
      rw [EndPhase.lookup, mem_def.1 htxn]
      exact if_pos hfenced
    refine iff_of_true (fun j nowMs written => ⟨⟨.invalidProducerEpoch, ?_, by decide⟩, rfl, rfl⟩) rfl
    simp [handle, hlookup]

/-- An InitProducerId request from its lookup to its answer. -/
def initProducer (i : Nat) : List Action :=
  [.lookup i, .chooseProducer i 60000 0, .append i true, .apply i]

/-- The pair of the first session does not end a transaction of the second. -/
theorem superseded_rejected_iff_second_session :
    ∃ s, Reaches (machine 0 "p") (NextEpoch "p") s ∧ s.handedOut = [(1, 0), (1, 1)] ∧
      s.Rejected "p" (.endTxn 1 0 true) := by
  obtain ⟨s, hreaches, hs⟩ := exists_reaches_of_run (machine 0 "p") (NextEpoch "p")
    (initProducer 0 ++ initProducer 1) (fun s => s.handedOut = [(1, 0), (1, 1)]) (by decide)
  have hpairs : s.handedOut = [(1, 0), (1, 1)] := hs
  have hsuperseded : s.Superseded (1, 0) := by simp [Superseded, hpairs]
  exact ⟨s, hreaches, hpairs,
    (superseded_rejected_iff (r := .endTxn 1 0 true) hreaches hsuperseded).2 rfl⟩

/-- No kind of request is fenced. For EndTxn, a call that has read epoch 0 registers after two others. -/
theorem superseded_accepted :
    ¬ ∃ kind, ∀ nodeId tid s r, Reaches (machine nodeId tid) Always s → r.kind = kind →
      s.Superseded r.pair → s.Rejected tid r := by
  rintro ⟨kind, h⟩
  obtain ⟨s, hreaches, hs⟩ :=
    exists_reaches_of_run (machine 0 "p") Always (initProducer 0 ++ initProducer 1)
    (fun s => s.Superseded (1, 0)) (by decide)
  have hsuperseded : s.Superseded (1, 0) := hs
  cases kind with
  | addPartitionsToTxn =>
    obtain ⟨⟨errorCode, hcode, hne⟩, -⟩ :=
      h 0 "p" s (.addPartitionsToTxn 1 0 [("t", 0)]) hreaches rfl hsuperseded 0 0 1
    exact hne (some.inj hcode).symm
  | txnOffsetCommit =>
    obtain ⟨⟨errorCode, hcode, hne⟩, -⟩ :=
      h 0 "p" s (.txnOffsetCommit 1 0 "g" [("t", 0, 5, none)]) hreaches rfl hsuperseded 0 0 1
    exact hne (some.inj hcode).symm
  | endTxn =>
  obtain ⟨s, hreaches, hs⟩ := exists_reaches_of_run (machine 0 "p") Always
    (initProducer 0 ++ [.lookup 1] ++ initProducer 2 ++ initProducer 3 ++
      ([.chooseProducer 1 60000 0, .append 1 true, .apply 1] : List Action))
    (fun s => s.Superseded (1, 2) ∧ (s.handle "p" 0 0 1 (.endTxn 1 2 true)).2 = none) (by decide)
  obtain ⟨hsuperseded, hnone⟩ := hs
  obtain ⟨⟨errorCode, hcode, -⟩, -⟩ := h 0 "p" s (.endTxn 1 2 true) hreaches rfl hsuperseded 0 0 1
  rw [hnone] at hcode
  cases hcode

end TxnServer

end ChronikStream.Metadata
