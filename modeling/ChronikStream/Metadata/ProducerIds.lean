import ChronikStream.Lib.Run
import ChronikStream.Metadata.InitProducerId

/-!
# Producer ids across the cluster

Every node counts producer ids from a base of its own, `2 ^ 40` apart. The counter is moved past
every id in an event the node applies, so it can leave its range (`producer_id_handed_out_twice`),
and ids that were not logged are forgotten by a restart. `KeepsRange` excludes both
(`producer_ids_distinct`).
-/

namespace ChronikStream.Metadata

open Machine List Option

/-! ## The steps -/

/-- What a node has to do with producer ids. The ids that `allocate_producer_id` returned are ghost
state. -/
structure ProducerNode where
  coordinator : TransactionCoordinator
  wal : List LoggedTransaction
  requests : Nat → InitPhase
  /-- Replicated events that are not yet applied. -/
  received : List LoggedTransaction
  allocated : List Int

namespace ProducerNode

variable (nodeId : UInt64) (s : ProducerNode)

def new (nodeId : UInt64) : ProducerNode := ⟨.new nodeId, [], fun _ => .idle, [], []⟩

def setRequest (i : Nat) (phase : InitPhase) : ProducerNode :=
  { s with requests := Function.update s.requests i phase }

/-- `replay_events` over the log of the node; what was in flight is gone. -/
def restart (nodeId : UInt64) : ProducerNode :=
  { new nodeId with
    coordinator := s.wal.foldl .applyLogged (.new nodeId)
    wal := s.wal
    allocated := s.allocated }

inductive Action where
  | lookup (i : Nat) (transactionalId : String)
  | chooseProducer (i : Nat) (timeoutMs nowMs : Int)
  | append (i : Nat) (ok : Bool)
  | apply (i : Nat)
  | initIdempotent (i : Nat)
  /-- A replicated event, in any order and any number of times; a failed append is logged. -/
  | receive (e : LoggedTransaction) (ok : Bool)
  | applyReceived (k : Nat)
  | restart
  deriving DecidableEq

/-- A step of a node, with the events it publishes. -/
def step : Action → Option (ProducerNode × List LoggedTransaction)
  | .lookup i transactionalId =>
    match s.requests i with
    | .idle => some
      (s.setRequest i (.found transactionalId (s.coordinator.transactions transactionalId)), [])
    | _ => none
  | .chooseProducer i timeoutMs nowMs =>
    match s.requests i with
    | .found transactionalId existing =>
      let (phase, c) := InitPhase.chooseProducer s.coordinator transactionalId existing timeoutMs nowMs
      let ids := if existing.isNone then [s.coordinator.nextProducerId] else []
      some ({ s with coordinator := c, allocated := s.allocated ++ ids }.setRequest i phase, [])
    | _ => none
  | .append i ok =>
    match s.requests i with
    | .registering e failedEpoch => some
      ({ s with wal := if ok then s.wal ++ [e] else s.wal }.setRequest i
        (.appended e failedEpoch ok), [])
    | _ => none
  | .apply i =>
    match s.requests i with
    | .applying e => some
      ({ s with coordinator := s.coordinator.applyLogged e }.setRequest i (.registered e), [e])
    | _ => none
  | .initIdempotent i =>
    match s.requests i with
    | .idle =>
      let (producerId, c) := s.coordinator.allocateProducerId
      some ({ s with coordinator := c, allocated := s.allocated ++ [producerId] }.setRequest i
        (.answered producerId 0 .none), [])
    | _ => none
  | .receive e ok => some
    ({ s with wal := if ok then s.wal ++ [e] else s.wal, received := s.received ++ [e] }, [])
  | .applyReceived k => s.received[k]?.map fun e =>
    ({ s with coordinator := s.coordinator.applyLogged e, received := s.received.eraseIdx k }, [])
  | .restart => some (s.restart nodeId, [])

def rangeEnd : Int := (nodeId.toNat + 1) * 2 ^ 40

/-- The node leaves its range neither by allocation nor by events, and restarts only when its log
covers its ids. -/
def KeepsRange : Action → Prop
  | .chooseProducer .. | .initIdempotent _ => s.coordinator.nextProducerId ≤ rangeEnd nodeId
  | .receive e _ => e.event.producerId ≤ rangeEnd nodeId
  | .restart => ∀ id ∈ s.allocated, ∃ e ∈ s.wal, id ≤ e.event.producerId
  | _ => True

instance (a : Action) : Decidable (s.KeepsRange nodeId a) := by
  unfold KeepsRange
  split <;> infer_instance

end ProducerNode

/-- The nodes by their ids, and the events that were published. -/
structure ProducerCluster where
  nodes : UInt64 → ProducerNode
  published : List LoggedTransaction

namespace ProducerCluster

/-- A node receives only what was published. -/
def Delivers (s : ProducerCluster) : ProducerNode.Action → Prop
  | .receive e _ => e ∈ s.published
  | _ => True

instance (s : ProducerCluster) (a : ProducerNode.Action) : Decidable (s.Delivers a) := by
  unfold Delivers
  split <;> infer_instance

def step (s : ProducerCluster) : UInt64 × ProducerNode.Action → Option ProducerCluster
  | (n, a) =>
    if s.Delivers a then
      ((s.nodes n).step n a).map fun (node, events) =>
        ⟨Function.update s.nodes n node, s.published ++ events⟩
    else none

def machine : Machine ProducerCluster (UInt64 × ProducerNode.Action) where
  init := ⟨.new, []⟩
  step := step

/-- The ids that were handed out are distinct, on each node and across them. -/
structure Distinct (s : ProducerCluster) : Prop where
  nodup : ∀ n, (s.nodes n).allocated.Nodup
  disjoint : ∀ n n', n ≠ n' → List.Disjoint (s.nodes n).allocated (s.nodes n').allocated

/-- The base of the node fits into its bits, and the node keeps to its range. -/
def KeepsRange (s : ProducerCluster) : UInt64 × ProducerNode.Action → Prop
  | (n, a) => n.toNat + 1 < 2 ^ 23 ∧ (s.nodes n).KeepsRange n a

instance : DecidableRel KeepsRange := fun _ _ => inferInstanceAs (Decidable (_ ∧ _))

end ProducerCluster

/-! ## The counter of a node -/

variable {n : UInt64} {c : TransactionCoordinator} {e : LoggedTransaction} {s s' : ProducerNode}

theorem producerIdBase_eq (h : n.toNat + 1 < 2 ^ 23) : producerIdBase n = n.toNat * 2 ^ 40 + 1 := by
  have hshift : (n.toBitVec <<< 40).toNat = 2 ^ 40 * n.toNat := by
    rw [BitVec.toNat_shiftLeft, Nat.shiftLeft_eq]
    show n.toNat * 2 ^ 40 % 2 ^ 64 = _
    omega
  have hnat : ((n.toBitVec <<< 40) ||| 1#64).toNat = 2 ^ 40 * n.toNat + 1 := by
    rw [BitVec.toNat_or, hshift]
    exact (Nat.two_pow_add_eq_or_of_lt (by decide : (1 : Nat) < 2 ^ 40) n.toNat).symm
  rw [producerIdBase, BitVec.toInt_eq_toNat_of_lt (by omega)]
  omega

/-- The producer ids that the node may come to know. -/
def InRange (n : UInt64) (producerId : Int) : Prop :=
  0 ≤ producerId ∧ producerId ≤ ProducerNode.rangeEnd n

/-- The counter is in the node's range or at its end, and the bound producers are not above it. -/
structure CoordinatorInv (n : UInt64) (c : TransactionCoordinator) : Prop where
  base_le : producerIdBase n ≤ c.nextProducerId
  le_end : c.nextProducerId ≤ ProducerNode.rangeEnd n + 1
  bound : ∀ tid, ∀ txn ∈ c.transactions tid, InRange n txn.producerId

theorem bmod_succ_of_inRange (hn : n.toNat + 1 < 2 ^ 23) {id : Int} (h : InRange n id) :
    (id + 1).bmod (2 ^ 64) = id + 1 := by
  have hend := h.2
  have hzero := h.1
  rw [ProducerNode.rangeEnd] at hend
  rw [Int.bmod_eq_of_le_mul_two] <;> omega

theorem producerId_apply {tid : String} {nowMs : Int} {txn : Option TransactionMetadata}
    {event : TransactionEvent} (h : txn' ∈ event.apply tid nowMs txn) :
    txn'.producerId = event.producerId ∨ ∃ old ∈ txn, txn'.producerId = old.producerId := by
  cases event with
  | beginTransaction =>
    cases h
    exact .inl rfl
  | producerFenced =>
    obtain ⟨old, -, rfl⟩ := map_eq_some_iff.1 h
    exact .inl rfl
  | _ =>
    obtain ⟨old, hold, rfl⟩ := map_eq_some_iff.1 h
    exact .inr ⟨old, hold, rfl⟩

section
variable (hn : n.toNat + 1 < 2 ^ 23)
include hn

theorem coordinatorInv_new : CoordinatorInv n (.new n) where
  base_le := le_refl _
  le_end := by
    show producerIdBase n ≤ _
    rw [producerIdBase_eq hn, ProducerNode.rangeEnd]
    omega
  bound _ _ h := by cases h

variable (h : CoordinatorInv n c)
include h

/-- Applying an event keeps the counter in the range, and moves it past the event's id. -/
theorem CoordinatorInv.applyLogged (he : InRange n e.event.producerId) :
    CoordinatorInv n (c.applyLogged e) ∧ c.nextProducerId ≤ (c.applyLogged e).nextProducerId ∧
      e.event.producerId < (c.applyLogged e).nextProducerId := by
  have hnext : (c.applyLogged e).nextProducerId = max c.nextProducerId (e.event.producerId + 1) := by
    rw [TransactionCoordinator.applyLogged, TransactionCoordinator.nextProducerId_apply,
      bmod_succ_of_inRange hn he]
  have hbase := h.base_le
  have hend := h.le_end
  have hle := he.2
  refine ⟨⟨?_, ?_, ?_⟩, ?_, ?_⟩
  · omega
  · omega
  · intro tid txn htxn
    by_cases htid : tid = e.transactionalId
    · subst htid
      rw [TransactionCoordinator.applyLogged, TransactionCoordinator.transactions_apply_self] at htxn
      rcases producerId_apply htxn with heq | ⟨old, hold, heq⟩
      · rw [heq]
        exact he
      · rw [heq]
        exact h.bound _ old hold
    · rw [TransactionCoordinator.applyLogged,
        TransactionCoordinator.transactions_apply_of_ne htid] at htxn
      exact h.bound tid txn htxn
  · omega
  · omega

theorem CoordinatorInv.allocate (hend : c.nextProducerId ≤ ProducerNode.rangeEnd n) :
    InRange n c.nextProducerId ∧ CoordinatorInv n c.allocateProducerId.2 ∧
      c.allocateProducerId.2.nextProducerId = c.nextProducerId + 1 := by
  have hbase := h.base_le
  have hpos := producerIdBase_eq hn
  have hrange : InRange n c.nextProducerId := ⟨by omega, hend⟩
  have hnext : c.allocateProducerId.2.nextProducerId = c.nextProducerId + 1 :=
    bmod_succ_of_inRange hn hrange
  exact ⟨hrange, ⟨by omega, by omega, h.bound⟩, hnext⟩

theorem coordinatorInv_replay {wal : List LoggedTransaction}
    (hwal : ∀ e ∈ wal, InRange n e.event.producerId) :
    CoordinatorInv n (wal.foldl .applyLogged c) ∧
      c.nextProducerId ≤ (wal.foldl .applyLogged c).nextProducerId ∧
      ∀ e ∈ wal, e.event.producerId < (wal.foldl .applyLogged c).nextProducerId := by
  induction wal generalizing c with
  | nil => exact ⟨h, le_refl _, fun _ he => (by cases he)⟩
  | cons e wal ih =>
    obtain ⟨hinv, hle, hlt⟩ := h.applyLogged hn (hwal e (.head _))
    obtain ⟨hinv', hle', hlt'⟩ := ih hinv fun x hx => hwal x (.tail _ hx)
    refine ⟨hinv', le_trans hle hle', fun x hx => ?_⟩
    rcases mem_cons.1 hx with rfl | hx
    · exact lt_of_lt_of_le hlt hle'
    · exact hlt' x hx

end

/-! ## A node in its range -/

/-- The producer ids that a request holds. -/
def PhaseInRange (n : UInt64) : InitPhase → Prop
  | .found _ existing => ∀ txn ∈ existing, InRange n txn.producerId
  | .registering e _ | .applying e => InRange n e.event.producerId
  | .idle | .answered .. => True

structure NodeInv (n : UInt64) (s : ProducerNode) : Prop where
  coordinator : CoordinatorInv n s.coordinator
  wal : ∀ e ∈ s.wal, InRange n e.event.producerId
  received : ∀ e ∈ s.received, InRange n e.event.producerId
  requests : ∀ i, PhaseInRange n (s.requests i)
  allocated : ∀ id ∈ s.allocated, producerIdBase n ≤ id ∧ id < s.coordinator.nextProducerId
  nodup : s.allocated.Nodup

section
variable (h : NodeInv n s)
include h

theorem NodeInv.setRequest (hphase : PhaseInRange n phase) : NodeInv n (s.setRequest i phase) :=
  { h with
    requests := by
      intro j
      by_cases hj : j = i
      · subst hj
        simpa [ProducerNode.setRequest] using hphase
      · simpa [ProducerNode.setRequest, hj] using h.requests j }

variable (hn : n.toNat + 1 < 2 ^ 23)
include hn

/-- An event that is applied moves the counter up, if at all. -/
theorem NodeInv.applyLogged (he : InRange n e.event.producerId) :
    NodeInv n { s with coordinator := s.coordinator.applyLogged e } := by
  obtain ⟨hinv, hle, -⟩ := h.coordinator.applyLogged hn he
  refine { h with coordinator := hinv, allocated := fun id hid => ?_ }
  exact ⟨(h.allocated id hid).1, lt_of_lt_of_le (h.allocated id hid).2 hle⟩

section
variable (hend : s.coordinator.nextProducerId ≤ ProducerNode.rangeEnd n)
include hend

theorem NodeInv.allocate :
    NodeInv n { s with
      coordinator := s.coordinator.allocateProducerId.2
      allocated := s.allocated ++ [s.coordinator.nextProducerId] } := by
  obtain ⟨-, hinv, hnext⟩ := h.coordinator.allocate hn hend
  refine { h with coordinator := hinv, allocated := fun id hid => ?_, nodup := ?_ }
  · rw [hnext]
    rcases mem_concat.1 hid with hid | rfl
    · have := h.allocated id hid
      omega
    · exact ⟨h.coordinator.base_le, by omega⟩
  · refine nodup_append.2 ⟨h.nodup, nodup_singleton _, fun id hid id' hid' heq => ?_⟩
    obtain rfl := mem_singleton.1 hid'
    have := (h.allocated id hid).2
    omega

/-- A request goes on with the bound producer, or with a new id. -/
theorem NodeInv.chooseProducer (hfound : ∀ txn ∈ existing, InRange n txn.producerId) :
    NodeInv n ({ s with
      coordinator := (InitPhase.chooseProducer s.coordinator tid existing timeoutMs nowMs).2
      allocated := s.allocated ++
        if existing.isNone then [s.coordinator.nextProducerId] else [] }.setRequest i
      (InitPhase.chooseProducer s.coordinator tid existing timeoutMs nowMs).1) := by
  cases existing with
  | some existing =>
    have hsame : NodeInv n { s with allocated := s.allocated ++ [] } := by
      rw [append_nil]
      exact h
    exact hsame.setRequest (hfound existing rfl)
  | none => exact (h.allocate hn hend).setRequest (h.coordinator.allocate hn hend).1

end

omit hn in
theorem NodeInv.append (he : InRange n e.event.producerId) (ok : Bool) :
    NodeInv n { s with wal := if ok then s.wal ++ [e] else s.wal } := by
  refine { h with wal := ?_ }
  cases ok with
  | true =>
    exact forall_mem_concat.2 ⟨h.wal, he⟩
  | false => exact h.wal

theorem NodeInv.restart
    (hcovered : ∀ id ∈ s.allocated, ∃ e ∈ s.wal, id ≤ e.event.producerId) : NodeInv n (s.restart n) := by
  obtain ⟨hinv, -, hlt⟩ := coordinatorInv_replay hn (coordinatorInv_new hn) h.wal
  refine ⟨hinv, h.wal, fun _ he => (by cases he), fun _ => trivial, fun id hid => ?_, h.nodup⟩
  obtain ⟨e, he, hle⟩ := hcovered id hid
  exact ⟨(h.allocated id hid).1, lt_of_le_of_lt hle (hlt e he)⟩

/-- A step in the range keeps the node in it, and what it publishes has a producer id. -/
theorem NodeInv.step
    (hok : s.KeepsRange n a) (hreceive : ∀ e ok, a = .receive e ok → 0 ≤ e.event.producerId)
    (hstep : s.step n a = some (s', events)) :
    NodeInv n s' ∧ ∀ e ∈ events, 0 ≤ e.event.producerId := by
  cases a with simp only [ProducerNode.step] at hstep
  | lookup i tid =>
    split at hstep <;> cases hstep
    exact ⟨h.setRequest (h.coordinator.bound tid), fun _ he => (by cases he)⟩
  | chooseProducer i timeoutMs nowMs =>
    split at hstep
    · rename_i tid existing hphase
      have hfound := h.requests i
      rw [hphase] at hfound
      cases hstep
      exact ⟨h.chooseProducer hn hok hfound, fun _ he => (by cases he)⟩
    · cases hstep
  | append i ok =>
    split at hstep
    · rename_i e failedEpoch hphase
      have he := h.requests i
      rw [hphase] at he
      cases hstep
      refine ⟨(h.append he ok).setRequest ?_, fun _ he => (by cases he)⟩
      cases ok with
      | true => exact he
      | false => trivial
    · cases hstep
  | apply i =>
    split at hstep
    · rename_i e hphase
      have he := h.requests i
      rw [hphase] at he
      cases hstep
      refine ⟨(h.applyLogged hn he).setRequest trivial, fun x hx => ?_⟩
      obtain rfl := mem_singleton.1 hx
      exact he.1
    · cases hstep
  | initIdempotent i =>
    split at hstep <;> cases hstep
    exact ⟨(h.allocate hn hok).setRequest trivial, fun _ he => (by cases he)⟩
  | receive e ok =>
    cases hstep
    have he : InRange n e.event.producerId := ⟨hreceive e ok rfl, hok⟩
    exact ⟨{ h.append he ok with received := forall_mem_concat.2 ⟨h.received,
      he⟩ }, fun _ he => (by cases he)⟩
  | applyReceived k =>
    obtain ⟨e, he, heq⟩ := map_eq_some_iff.1 hstep
    cases heq
    have hrange := h.received e (mem_of_getElem? he)
    refine ⟨{ h.applyLogged hn hrange with received := fun x hx => ?_ }, fun _ he => (by cases he)⟩
    exact h.received x (mem_of_mem_eraseIdx hx)
  | restart =>
    cases hstep
    exact ⟨h.restart hn hok, fun _ he => (by cases he)⟩

end

/-! ## The cluster -/

namespace ProducerCluster

/-- Every node that has taken a step is in its range; the others have handed out nothing. -/
structure RangeInv (s : ProducerCluster) : Prop where
  node : ∀ n : UInt64, n.toNat + 1 < 2 ^ 23 → NodeInv n (s.nodes n)
  idle : ∀ n : UInt64, ¬ n.toNat + 1 < 2 ^ 23 → (s.nodes n).allocated = []
  published : ∀ e ∈ s.published, 0 ≤ e.event.producerId

theorem rangeInv_init : RangeInv machine.init where
  node n hn := by
    refine ⟨coordinatorInv_new hn, ?_, ?_, fun _ => trivial, ?_, .nil⟩ <;> exact fun _ h => (by cases h)
  idle _ _ := rfl
  published _ h := by cases h

theorem RangeInv.step {s s' : ProducerCluster} (h : s.RangeInv)
    (hok : s.KeepsRange a) (hstep : s.step a = some s') : s'.RangeInv := by
  obtain ⟨n, a⟩ := a
  obtain ⟨hn, hok⟩ := hok
  rw [ProducerCluster.step, ite_none_right_eq_some] at hstep
  obtain ⟨hdelivers, hstep⟩ := hstep
  obtain ⟨⟨node, events⟩, hnode, rfl⟩ := map_eq_some_iff.1 hstep
  have hreceive : ∀ e ok, a = .receive e ok → 0 ≤ e.event.producerId := by
    rintro e ok rfl
    exact h.published e hdelivers
  obtain ⟨hinv, hevents⟩ := (h.node n hn).step hn hok hreceive hnode
  refine ⟨fun m hm => ?_, fun m hm => ?_, fun e he => ?_⟩
  · by_cases hmn : m = n
    · subst hmn
      simpa using hinv
    · simpa [hmn] using h.node m hm
  · have hmn : m ≠ n := by
      rintro rfl
      exact hm hn
    simpa [hmn] using h.idle m hm
  · rcases mem_append.1 he with he | he
    · exact h.published e he
    · exact hevents e he

theorem RangeInv.distinct {s : ProducerCluster} (h : s.RangeInv) : s.Distinct where
  nodup n := by
    by_cases hn : n.toNat + 1 < 2 ^ 23
    · exact (h.node n hn).nodup
    · rw [h.idle n hn]
      exact .nil
  disjoint n n' hne id hid hid' := by
    have hrange : ∀ m : UInt64, id ∈ (s.nodes m).allocated →
        (m.toNat : Int) * 2 ^ 40 + 1 ≤ id ∧ id ≤ (m.toNat + 1) * 2 ^ 40 := by
      intro m hm
      by_cases hsmall : m.toNat + 1 < 2 ^ 23
      · have hnode := h.node m hsmall
        obtain ⟨hlow, hhigh⟩ := hnode.allocated id hm
        have hend := hnode.coordinator.le_end
        rw [producerIdBase_eq hsmall] at hlow
        rw [ProducerNode.rangeEnd] at hend
        exact ⟨hlow, by omega⟩
      · rw [h.idle m hsmall] at hm
        cases hm
    have hn := hrange n hid
    have hn' := hrange n' hid'
    have heq : n.toNat = n'.toNat := by omega
    exact hne (UInt64.toNat_inj.1 heq)

end ProducerCluster

open ProducerCluster

/-- All producer ids are distinct where the nodes keep to their ranges. -/
theorem producer_ids_distinct {s : ProducerCluster}
    (h : Reaches machine KeepsRange s) : s.Distinct := by
  have hinv : s.RangeInv :=
    h.invariant rangeInv_init fun s a s' hs hok hstep => hs.step hok hstep
  exact hinv.distinct

/-- A transactional producer on node 1 whose event reaches node 2, a restart of node 1, and an
idempotent producer on each of them. -/
theorem producer_ids_distinct_restart :
    ∃ s, Reaches machine KeepsRange s ∧
      (s.nodes 1).allocated = [2 ^ 40 + 1, 2 ^ 40 + 2] ∧ (s.nodes 2).allocated = [2 ^ 41 + 1] ∧
      s.Distinct := by
  let registered := registration "t" (2 ^ 40 + 1) 0 60000 0
  obtain ⟨s, hreaches, hone, htwo⟩ := exists_reaches_of_run machine KeepsRange
    [(1, .lookup 0 "t"), (1, .chooseProducer 0 60000 0), (1, .append 0 true), (1, .apply 0),
      (2, .receive registered true), (2, .applyReceived 0), (1, .restart), (1, .initIdempotent 0),
      (2, .initIdempotent 0)]
    (fun s => (s.nodes 1).allocated = [2 ^ 40 + 1, 2 ^ 40 + 2] ∧ (s.nodes 2).allocated = [2 ^ 41 + 1]) (by decide)
  exact ⟨s, hreaches, hone, htwo, producer_ids_distinct hreaches⟩

/-- Node 1 applies an event of node 2 and then hands out the id that node 2 hands out next. -/
theorem producer_id_handed_out_twice :
    ¬ ∀ s, Reaches machine Always s → s.Distinct := by
  intro h
  let registered := registration "t" (2 ^ 41 + 1) 0 60000 0
  obtain ⟨s, hreaches, hone, htwo⟩ := exists_reaches_of_run machine Always
    [(2, .lookup 0 "t"), (2, .chooseProducer 0 60000 0), (2, .append 0 true), (2, .apply 0),
      (1, .receive registered true), (1, .applyReceived 0), (1, .initIdempotent 0),
      (2, .initIdempotent 1)]
    (fun s => 2 ^ 41 + 2 ∈ (s.nodes 1).allocated ∧ 2 ^ 41 + 2 ∈ (s.nodes 2).allocated) (by decide)
  exact (h s hreaches).disjoint 1 2 (by decide) hone htwo

/-- A restart forgets the id of an idempotent producer. -/
example : ∃ s, Reaches machine Always s ∧
    (s.nodes 0).allocated = [1, 1] :=
  exists_reaches_of_run machine Always
    [(0, .initIdempotent 0), (0, .restart), (0, .initIdempotent 0)]
    _ (by decide)

end ChronikStream.Metadata
