import ChronikStream.Replication.Placement
import Mathlib.Data.List.GetD
import Mathlib.Data.Nat.ModEq

/-!
# Rebalancing and acknowledged records

When the number of members has changed, the rebalancer writes for every partition the members from
its position on, the first as the leader, whatever they have copied (`rebalances_to_empty_node`).
The leader holds what is acknowledged where the member placed first is the one that leads
(`LeaderPlacedFirst`).
-/

namespace ChronikStream

open Machine Option
open List hiding partition count
open Metadata (PartitionAssignment)

/-! ## The replica lists -/

section

theorem mem_of_mem_roundRobin (hne : nodes ≠ [])
    (h : node ∈ roundRobin nodes effectiveRf partition) : node ∈ nodes := by
  obtain ⟨offset, -, rfl⟩ := mem_map.1 h
  have hlt : (partition + offset) % nodes.length < nodes.length :=
    Nat.mod_lt _ (length_pos_iff.2 hne)
  rw [getD_eq_getElem _ _ hlt]
  exact getElem_mem hlt

theorem roundRobin_nodup (hnodup : nodes.Nodup) (hrf : effectiveRf ≤ nodes.length) :
    (roundRobin nodes effectiveRf partition).Nodup := by
  refine List.Nodup.map_on ?_ nodup_range
  intro i hi j hj heq
  have hi := mem_range.1 hi
  have hj := mem_range.1 hj
  have hpos : 0 < nodes.length := by omega
  rw [getD_eq_getElem _ _ (Nat.mod_lt _ hpos), getD_eq_getElem _ _ (Nat.mod_lt _ hpos),
    hnodup.getElem_inj_iff] at heq
  have hmod : i ≡ j [MOD nodes.length] := Nat.ModEq.add_left_cancel' partition heq
  exact Nat.ModEq.eq_of_lt_of_lt hmod (by omega) (by omega)

theorem lookup_calculateAssignments
    (h : (calculateAssignments partitionCount nodes replicationFactor).lookup partition = some replicas) :
    nodes ≠ [] ∧ replicas = roundRobin nodes (min replicationFactor nodes.length) partition := by
  rw [calculateAssignments] at h
  split at h
  case isTrue => cases h
  case isFalse hne =>
  refine ⟨hne, ?_⟩
  obtain ⟨before, after, heq, -⟩ := lookup_eq_some_iff.1 h
  have hmem : (partition, replicas) ∈ before ++ (partition, replicas) :: after := by simp
  rw [← heq] at hmem
  obtain ⟨p, -, hp⟩ := mem_map.1 hmem
  cases hp
  rfl

end

namespace PartitionCluster

variable {α : Type*} {s s' : PartitionCluster α} {c : ClusterConfig}

/-! ## Placement -/

/-- Distinct ones of the nodes, as many as the factor or their number allows. -/
structure WellPlaced (replicationFactor : Nat) (nodes replicas : List Nat) : Prop where
  nodup : replicas.Nodup
  mem : ∀ node ∈ replicas, node ∈ nodes
  length : replicas.length = min replicationFactor nodes.length

/-- The members are distinct, those that were read too, and what was written is well placed. -/
structure Placed (c : ClusterConfig) (s : PartitionCluster α) : Prop where
  members : s.members.Nodup
  polled : ∀ nodes ∈ s.polled, nodes.Nodup
  placed : ∀ x ∈ s.placed, WellPlaced c.replicationFactor x.1 x.2

theorem Placed.step (h : s.Placed c) (hs : s.step c act = some s') : s'.Placed c := by
  cases act with
  | replicas action =>
    obtain ⟨-, hs⟩ := ite_none_right_eq_some.1 hs
    obtain ⟨base, -, rfl⟩ := map_eq_some_iff.1 hs
    exact { h with }
  | publish i leaderOffset =>
    obtain ⟨a, -, rfl⟩ := map_eq_some_iff.1 hs
    dsimp only
    split <;> exact { h with }
  | failover i =>
    obtain ⟨x, -, rfl⟩ := map_eq_some_iff.1 hs
    exact { h with }
  | addMember node =>
    obtain ⟨hnew, rfl⟩ := of_not_guard hs
    exact ⟨nodup_cons.2 ⟨hnew, h.members⟩, h.polled, h.placed⟩
  | removeMember node =>
    cases hs
    exact ⟨h.members.filter _, h.polled, h.placed⟩
  | poll nodes =>
    obtain ⟨⟨hperm, -⟩, hs⟩ := ite_none_right_eq_some.1 hs
    split at hs
    · cases hs
      exact h
    cases hs
    refine ⟨h.members, ?_, h.placed⟩
    intro nodes' hnodes'
    cases hnodes'
    exact hperm.nodup_iff.2 h.members
  | rebalance ok =>
    obtain ⟨nodes, hnodes, rfl⟩ := map_eq_some_iff.1 hs
    dsimp only
    split
    case h_1 newReplicas hlookup =>
      obtain ⟨hne, rfl⟩ := lookup_calculateAssignments hlookup
      refine ⟨h.members, fun _ hn => (by cases hn), ?_⟩
      intro x hx
      rcases mem_concat.1 hx with hx | rfl
      · exact h.placed x hx
      exact ⟨roundRobin_nodup (h.polled nodes hnodes) (min_le_right _ _),
        fun _ => mem_of_mem_roundRobin hne, by simp [roundRobin]⟩
    case h_2 => exact ⟨h.members, fun _ hn => (by cases hn), h.placed⟩
  | restart _ | tick _ | readAssignment | plan _ =>
    cases hs
    exact { h with }

/-! ## The leader's log -/

def leaderLog (s : PartitionCluster α) : List (Batch α) := (s.base.replicas s.assignment.leaderId).log

/-- The members are read in an order that places the present leader first; a publication is written
while the leader it has read leads; and the leader does not reconcile with another node. -/
def LeaderPlacedFirst (s : PartitionCluster α) : Action α → Prop
  | .replicas action => s.assignment.leaderId ∉ action.reconciles
  | .publish i _ => ∀ a ∈ s.publishing[i]?, a.leaderId = s.assignment.leaderId
  | .failover _ => False
  | .rebalance _ => ∀ nodes ∈ s.polled, nodes ≠ [] →
      nodes[s.assignment.partition % nodes.length]? = some s.assignment.leaderId
  | _ => True

instance : DecidableRel (LeaderPlacedFirst (α := α))
  | _, .replicas action => inferInstanceAs (Decidable (_ ∉ action.reconciles))
  | s, .publish i _ => inferInstanceAs (Decidable (∀ a ∈ s.publishing[i]?, _))
  | _, .failover _ => .isFalse id
  | s, .rebalance _ => inferInstanceAs (Decidable (∀ nodes ∈ s.polled, _ → _))
  | _, .restart _ | _, .tick _ | _, .readAssignment | _, .plan _ | _, .addMember _ | _, .removeMember _
  | _, .poll _ => .isTrue trivial

/-- The node leads and holds what is acknowledged, what waits to be, and what is being produced. -/
structure HeldAt (base : Cluster Nat α) (acked : List (Batch α)) (node : Nat) : Prop where
  leader : base.leader = node
  produces : ∀ x, x ∈ base.appended ∨ x ∈ base.registered → x.2 ∈ (base.replicas node).log
  waits : ∀ m o w, (base.replicas m).acks.Waits o w → w.tx ∈ (base.replicas node).log
  acked : ∀ b ∈ acked, b ∈ (base.replicas node).log

section
variable {base base' : Cluster Nat α} {acked : List (Batch α)} {node : Nat}

theorem HeldAt.tx_mem (h : HeldAt base acked node) (hw : base.WaitsAt action m w) :
    w.tx ∈ (base.replicas node).log := by
  rcases hw with ⟨o, hw⟩ | ⟨i, -, happended⟩
  · exact h.waits m o w hw
  · exact h.produces _ (.inl happended)

theorem HeldAt.step (h : HeldAt base acked node) (hs : base.step action = some base')
    (helect : ∀ n, action ≠ .elect n) (hreconcile : node ∉ action.reconciles) :
    HeldAt base' (acked ++ base'.released.map (·.2.tx)) node := by
  have hlog := Cluster.log_prefix_of_step hs hreconcile
  constructor
  case leader => exact (Cluster.leader_of_step hs helect).trans h.leader
  case produces =>
    intro x hx
    rcases Cluster.produces_of_step hs hx with hx | ⟨-, hx⟩
    · exact hlog.subset (h.produces x hx)
    · rwa [h.leader] at hx
  case waits => exact fun m o w hw => hlog.subset (h.tx_mem (Cluster.waits_of_step hs hw))
  case acked =>
    intro b hb
    rcases mem_append.1 hb with hb | hb
    · exact hlog.subset (h.acked b hb)
    · obtain ⟨x, hx, rfl⟩ := mem_map.1 hb
      exact hlog.subset (h.tx_mem (Cluster.waits_of_released hs hx))

/-- Waits and produces that are given up, as over a restart of their node. -/
theorem HeldAt.restart (h : HeldAt s.base acked node) : HeldAt (s.restart c n).base acked node where
  leader := h.leader
  produces x hx := mem_log_restart (h.produces x (produces_restart hx))
  waits m o w hw := mem_log_restart (h.waits m o w (waits_restart hw))
  acked b hb := mem_log_restart (h.acked b hb)

end

/-- The leader that is written is the one that leads. -/
theorem HeldAt.assign {a : PartitionAssignment} (h : HeldAt s.base s.acked s.assignment.leaderId)
    (ha : a.leaderId = s.assignment.leaderId) :
    HeldAt (s.assign a).base (s.assign a).acked (s.assign a).assignment.leaderId := by
  have hleader : (s.assign a).assignment.leaderId = s.assignment.leaderId := ha
  rw [hleader]
  exact ⟨hleader, h.produces, h.waits, h.acked⟩

theorem leaderId_rebalanced (hrf : 0 < c.replicationFactor) (hnodes : nodes ∈ s.polled)
    (hok : s.LeaderPlacedFirst (.rebalance ok))
    (hlookup : (calculateAssignments count nodes c.replicationFactor).lookup s.assignment.partition =
      some replicas) :
    (rebalanced topic s.assignment.partition replicas).leaderId = s.assignment.leaderId := by
  obtain ⟨hne, rfl⟩ := lookup_calculateAssignments hlookup
  have hpos := length_pos_iff.2 hne
  obtain ⟨effectiveRf, heq⟩ := Nat.exists_eq_add_one.2 (Nat.lt_min.2 ⟨hrf, hpos⟩)
  rw [rebalanced, heq, roundRobin, range_succ_eq_map, map_cons, head?_cons]
  dsimp only [getD_some]
  rw [add_zero, getD_eq_getElem?_getD, hok nodes hnodes hne, getD_some]

theorem heldAt_step (hrf : 0 < c.replicationFactor)
    (h : HeldAt s.base s.acked s.assignment.leaderId) (hok : s.LeaderPlacedFirst act)
    (hs : s.step c act = some s') : HeldAt s'.base s'.acked s'.assignment.leaderId := by
  cases act with
  | replicas action =>
    obtain ⟨henabled, hs⟩ := ite_none_right_eq_some.1 hs
    obtain ⟨base, hbase, rfl⟩ := map_eq_some_iff.1 hs
    refine h.step hbase ?_ hok
    rintro n rfl
    exact henabled
  | restart node =>
    cases hs
    exact h.restart
  | publish i leaderOffset =>
    obtain ⟨a, ha, rfl⟩ := map_eq_some_iff.1 hs
    dsimp only
    split
    · exact h
    · exact HeldAt.assign (s := { s with publishing := _ }) h (hok a ha)
  | failover i => exact hok.elim
  | rebalance ok =>
    obtain ⟨nodes, hnodes, rfl⟩ := map_eq_some_iff.1 hs
    dsimp only
    split
    case h_1 replicas hlookup =>
      exact HeldAt.assign (s := { s with polled := none, lastMemberCount := _ }) h
        (leaderId_rebalanced hrf hnodes hok hlookup)
    case h_2 => exact h
  | addMember node =>
    obtain ⟨-, rfl⟩ := of_not_guard hs
    exact h
  | poll nodes =>
    obtain ⟨-, hs⟩ := ite_none_right_eq_some.1 hs
    split at hs <;> cases hs <;> exact h
  | tick _ | readAssignment | plan _ | removeMember _ =>
    cases hs
    exact h

/-- A rebalance writes distinct members, as many as the factor or their number allows; and where the
member placed first is the one that leads, the leader holds every batch acknowledged with acks=all. -/
theorem rebalance_placement (c : ClusterConfig) (hrf : 0 < c.replicationFactor)
    (assignment : PartitionAssignment) (partitionCount : Nat) (members : List Nat)
    (hmembers : members.Nodup) :
    (∀ s : PartitionCluster α, Reaches (machine c assignment partitionCount members) Always s →
      ∀ x ∈ s.placed, WellPlaced c.replicationFactor x.1 x.2) ∧
    ∀ s : PartitionCluster α,
      Reaches (machine c assignment partitionCount members) LeaderPlacedFirst s →
      ∀ b ∈ s.acked, b ∈ s.leaderLog := by
  constructor
  · intro s h
    have hinit : (machine c assignment partitionCount members).init.Placed (α := α) c :=
      ⟨hmembers, fun _ hn => (by cases hn), forall_mem_nil _⟩
    exact (h.invariant (I := Placed c) hinit fun _ _ _ hi _ hs => hi.step hs).placed
  · intro s h
    have hinit : HeldAt (machine (α := α) c assignment partitionCount members).init.base []
        assignment.leaderId := by
      refine ⟨rfl, fun _ hx => ?_, fun _ _ _ hw => ?_, forall_mem_nil _⟩
      · rcases hx with hx | hx <;> cases hx
      · obtain ⟨ws, hws, -⟩ := hw
        cases hws
    exact (h.invariant (I := fun s => HeldAt s.base s.acked s.assignment.leaderId) hinit
      fun _ _ _ hi hok hs => heldAt_step hrf hi hok hs).acked

/-! ## A node that has just joined -/

/-- Node 1 leads, node 2 follows. -/
def ordersOfTwo : PartitionAssignment := ⟨"orders", 0, 1, true, [1, 2], 1, 0, []⟩

def twoOfTwo : ClusterConfig := ⟨2, 2, 10000, 10000⟩

/-- A batch is acknowledged by both replicas. -/
def bothAcked : List (Action Nat) :=
  [.replicas (.append [7]), .replicas (.fetch 2 1 1), .replicas (.apply 0), .replicas (.fetch 2 1 1),
    .replicas (.register 0 2 0), .replicas (.selfAck 0)]

/-- Node 3 joins, and the members are read in the order 3, 1, 2. -/
def joinedFirst : List (Action Nat) := bothAcked ++ [.addMember 3, .poll [3, 1, 2], .rebalance true]

/-- Node 3 joins, and the members are read in the order 1, 3, 2. -/
def joinedBehind : List (Action Nat) := bothAcked ++ [.addMember 3, .poll [1, 3, 2], .rebalance true]

/-- Whenever the rebalancer writes, a replica of the assignment before holds every acknowledged
batch. -/
def PreviousHolder (s : PartitionCluster α) : Action α → Prop
  | .rebalance _ => ∃ node ∈ s.assignment.replicas, s.HeldBy node
  | .publish .. | .failover _ | .restart _ => False
  | _ => True

instance [DecidableEq α] : DecidableRel (PreviousHolder (α := α))
  | s, .rebalance _ => inferInstanceAs (Decidable (∃ node ∈ s.assignment.replicas, _))
  | _, .publish .. | _, .failover _ | _, .restart _ => .isFalse id
  | _, .replicas _ | _, .tick _ | _, .readAssignment | _, .plan _ | _, .addMember _ | _, .removeMember _
  | _, .poll _ => .isTrue trivial

/-- The rebalancer makes a node the leader that has nothing of the partition. -/
theorem rebalances_to_empty_node :
    ¬ ∀ s : PartitionCluster Nat, Reaches (machine twoOfTwo ordersOfTwo 1 [1, 2]) PreviousHolder s →
      ∀ b ∈ s.acked, b ∈ s.leaderLog := by
  intro h
  obtain ⟨s, hs, hp⟩ := exists_reaches_of_run (machine twoOfTwo ordersOfTwo 1 [1, 2]) PreviousHolder
    joinedFirst (fun s => ¬ s.HeldBy s.assignment.leaderId) (by decide)
  exact hp (h s hs)

theorem rebalance_placement_joined_behind :
    [1, 2].Nodup ∧ ∃ s : PartitionCluster Nat,
      Reaches (machine twoOfTwo ordersOfTwo 1 [1, 2]) LeaderPlacedFirst s ∧
      s.placed = [([1, 3, 2], [1, 3])] ∧ s.acked.length = 1 ∧ ∀ b ∈ s.acked, b ∈ s.leaderLog := by
  obtain ⟨s, hs, hplaced, hacked⟩ := exists_reaches_of_run (machine twoOfTwo ordersOfTwo 1 [1, 2])
    LeaderPlacedFirst joinedBehind
    (fun s => s.placed = [([1, 3, 2], [1, 3])] ∧ s.acked.length = 1) (by decide)
  exact ⟨by decide, s, hs, hplaced, hacked,
    (rebalance_placement twoOfTwo (by decide) ordersOfTwo 1 [1, 2] (by decide)).2 s hs⟩

end PartitionCluster

end ChronikStream
