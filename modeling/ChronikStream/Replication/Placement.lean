import ChronikStream.Metadata.AntiEntropy
import ChronikStream.Replication.AcksAll
import ChronikStream.Replication.IsrTracker

/-!
# Who leads a partition, and who holds its records

The stored assignment names the leader, the replicas and the published in-sync set. The publisher,
the failover controller (`plan_failover`) and the rebalancer (`calculate_assignments`) write it,
each after having read what it decides from. `acked` are the batches whose wait was answered with
success, as ghost state; `HeldBy` says that they are in the logs of some nodes.
-/

namespace ChronikStream

open Machine Option List
open Metadata (PartitionAssignment MetadataState Internal)

/-! ## The in-sync set -/

/-- Nothing is known about any follower. -/
def IsrTracker.IsUnknownForAll (t : IsrTracker) (tp : PartitionKey) (replicas : List Nat) (leaderId : Nat) :
    Prop :=
  ∀ node ∈ replicas, node ≠ leaderId → t.follower node tp = none
deriving Decidable

def IsrTracker.getIsr (t : IsrTracker) (tp : PartitionKey) (leaderOffset : Int) (allReplicas : List Nat)
    (nowMs : Nat) : List Nat :=
  allReplicas.filter fun node => t.syncState node tp leaderOffset nowMs = .inSync

/-- The in-sync set in the order of the replicas, with the leader, or nothing where nothing is known. -/
def inSyncReplicas (t : IsrTracker) (tp : PartitionKey) (leaderOffset : Int) (replicas : List Nat)
    (leaderId nowMs : Nat) : Option (List Nat) :=
  if t.IsUnknownForAll tp replicas leaderId then none
  else
    let isr := t.getIsr tp leaderOffset replicas nowMs
    let isr := if leaderId ∈ isr then isr else leaderId :: isr
    some (replicas.filter (· ∈ isr))

/-! ## Failover -/

structure Failover where
  topic : String
  partition : Nat
  from_ : Nat
  to_ : Nat
  replicas : List Nat
  liveReplicas : List Nat

structure Stranded where
  topic : String
  partition : Nat
  leader : Nat

structure FailoverPlan where
  failovers : List Failover
  stranded : List Stranded

/-- The replicas that may be elected while these nodes are live: those of the published set, if there is
one. -/
def eligible (a : PartitionAssignment) (live : List Nat) : List Nat :=
  let liveReplicas := a.replicas.filter (· ∈ live)
  if a.isr = [] then liveReplicas else liveReplicas.filter (· ∈ a.isr)

def planPartition (live : List Nat) (plan : FailoverPlan) (a : PartitionAssignment) : FailoverPlan :=
  if Internal a.topic then plan
  else if a.leaderId ∈ live then plan
  else
    match (eligible a live).head? with
    | some to_ =>
      { plan with
        failovers := plan.failovers ++
          [⟨a.topic, a.partition, a.leaderId, to_, a.replicas, a.replicas.filter (· ∈ live)⟩] }
    | none => { plan with stranded := plan.stranded ++ [⟨a.topic, a.partition, a.leaderId⟩] }

def planFailover (assignments : List PartitionAssignment) (live : List Nat) : FailoverPlan :=
  assignments.foldl (planPartition live) ⟨[], []⟩

/-- What `apply` hands to the store. The empty set stands for what is published. -/
def Failover.assignment (f : Failover) : PartitionAssignment :=
  ⟨f.topic, f.partition, Bytes.wrap 4 f.to_, true, f.replicas, f.to_, 0, []⟩

/-! ## Rebalancing -/

/-- The replicas of a partition: the members from its position on, around the list. -/
def roundRobin (nodes : List Nat) (effectiveRf partition : Nat) : List Nat :=
  (range effectiveRf).map fun offset => nodes.getD ((partition + offset) % nodes.length) 0

def calculateAssignments (partitionCount : Nat) (nodes : List Nat) (replicationFactor : Nat) :
    List (Nat × List Nat) :=
  if nodes = [] then []
  else (range partitionCount).map fun partition =>
    (partition, roundRobin nodes (min replicationFactor nodes.length) partition)

/-- What `rebalance_topic` hands to the store for a partition. -/
def rebalanced (topic : String) (partition : Nat) (newReplicas : List Nat) : PartitionAssignment :=
  let leaderId := newReplicas.head?.getD 0
  ⟨topic, partition, Bytes.wrap 4 leaderId, true, newReplicas, leaderId, 0, []⟩

/-! ## The cluster -/

structure ClusterConfig where
  minInsyncReplicas : Nat
  replicationFactor : Nat
  maxLagEntries : Nat
  maxLagMs : Nat

/-- `min_insync_replicas.clamp(1, replicas.len().max(1))`. -/
def ClusterConfig.quorumSize (c : ClusterConfig) (replicas : List Nat) : Nat :=
  max 1 (min c.minInsyncReplicas (max replicas.length 1))

/-- Plans and publications that are not written yet are kept with the assignment they were made
from. `acked` and `placed` are ghost state: batches acknowledged with acks=all, and lists written by
the rebalancer with the members it had read. -/
structure PartitionCluster (α : Type*) where
  base : Cluster Nat α
  trackers : Nat → IsrTracker
  assignment : PartitionAssignment
  partitionCount : Nat
  members : List Nat
  lastMemberCount : Nat
  polled : Option (List Nat)
  publishing : List PartitionAssignment
  planned : List (PartitionAssignment × Failover)
  nowMs : Nat
  acked : List (Batch α)
  placed : List (List Nat × List Nat)

namespace PartitionCluster

variable {α : Type*}

/-- Steps of the replicas, of time and of the three tasks. A node that starts again has empty
trackers, members come in any order, and a rebalance whose write fails is not repeated. -/
inductive Action (α : Type*) where
  | replicas (action : Cluster.Action Nat α)
  | restart (node : Nat)
  | tick (ms : Nat)
  | readAssignment
  | publish (i : Nat) (leaderOffset : Int)
  | plan (live : List Nat)
  | failover (i : Nat)
  | addMember (node : Nat)
  | removeMember (node : Nat)
  | poll (nodes : List Nat)
  | rebalance (ok : Bool)

section
variable (c : ClusterConfig) (s : PartitionCluster α)

def tp : PartitionKey := (s.assignment.topic, s.assignment.partition)

/-- Elections are those of the tasks, and the quorum is that of the assignment. -/
def Enabled : Cluster.Action Nat α → Prop
  | .elect _ => False
  | .register _ quorumSize _ => quorumSize = c.quorumSize s.assignment.replicas
  | _ => True

instance : DecidablePred (s.Enabled c) := fun _ => by
  unfold Enabled
  split <;> infer_instance

/-- A fetch is a report to the tracker of the node it reaches. -/
def trackersAfter : Cluster.Action Nat α → Nat → IsrTracker
  | .fetch follower target _ =>
    Function.update s.trackers target
      (((s.trackers target).updateFollowerOffset follower s.tp (s.base.replicas follower).logEnd
        s.nowMs).recordNodeAlive follower s.nowMs)
  | _ => s.trackers

/-- A step of the replicas; the waits it answers are acknowledged. -/
def replicasStep (action : Cluster.Action Nat α) : Option (PartitionCluster α) :=
  (s.base.step action).map fun base =>
    { s with
      base := base
      trackers := s.trackersAfter action
      acked := s.acked ++ base.released.map (·.2.tx) }

/-- `assign_partition`; the node it names leads. -/
def assign (a : PartitionAssignment) : PartitionCluster α :=
  let a := MetadataState.assignPartition (some s.assignment) a
  { s with
    assignment := a
    base := { s.base with leader := a.leaderId, leaderEpoch := a.leaderEpoch, released := [] } }

/-- The node starts again: its logs are there, its trackers and its produces are not. -/
def restart (node : Nat) : PartitionCluster α :=
  { s with
    base := { s.base with
      replicas := withAcks s.base.replicas node .new
      appended := s.base.appended.filter (·.1 ≠ node)
      registered := s.base.registered.filter (·.1 ≠ node)
      released := [] }
    trackers := Function.update s.trackers node (.new c.maxLagEntries c.maxLagMs) }

/-- The set the publisher writes, for the assignment that it has read. -/
def measured (a : PartitionAssignment) (leaderOffset : Int) : Option (List Nat) :=
  inSyncReplicas (s.trackers a.leaderId) (a.topic, a.partition) leaderOffset a.replicas a.leaderId s.nowMs

def step : Action α → Option (PartitionCluster α)
  | .replicas action => if s.Enabled c action then s.replicasStep action else none
  | .restart node => some (s.restart c node)
  | .tick ms => some { s with nowMs := s.nowMs + ms }
  | .readAssignment => some { s with publishing := s.publishing ++ [s.assignment] }
  | .publish i leaderOffset =>
    s.publishing[i]?.map fun a =>
      let s := { s with publishing := s.publishing.eraseIdx i }
      match s.measured a leaderOffset with
      | none => s
      | some isr => s.assign { a with isr := isr }
  | .plan live =>
    some { s with
      planned := s.planned ++ (planFailover [s.assignment] live).failovers.map (s.assignment, ·) }
  | .failover i =>
    s.planned[i]?.map fun x => { s with planned := s.planned.eraseIdx i }.assign x.2.assignment
  | .addMember node => if node ∈ s.members then none else some { s with members := node :: s.members }
  | .removeMember node => some { s with members := s.members.filter (· ≠ node) }
  | .poll nodes =>
    if nodes.Perm s.members ∧ s.polled = none then
      if nodes.length = s.lastMemberCount then some s else some { s with polled := some nodes }
    else none
  | .rebalance ok =>
    s.polled.map fun nodes =>
      let s := { s with polled := none, lastMemberCount := nodes.length }
      let assignments := calculateAssignments s.partitionCount nodes c.replicationFactor
      match assignments.lookup s.assignment.partition, ok with
      | some newReplicas, true =>
        { s.assign (rebalanced s.assignment.topic s.assignment.partition newReplicas) with
          placed := s.placed ++ [(nodes, newReplicas)] }
      | _, _ => s

def machine (assignment : PartitionAssignment) (partitionCount : Nat)
    (members : List Nat) : Machine (PartitionCluster α) (Action α) where
  init :=
    { base := { (acksAll assignment.leaderId).init with leaderEpoch := assignment.leaderEpoch }
      trackers := fun _ => .new c.maxLagEntries c.maxLagMs
      assignment := assignment
      partitionCount := partitionCount
      members := members
      lastMemberCount := members.length
      polled := none
      publishing := []
      planned := []
      nowMs := 0
      acked := []
      placed := [] }
  step := step c

/-! ## Acknowledged batches -/

/-- The nodes that hold every acknowledged batch. -/
def HeldBy (node : Nat) : Prop :=
  ∀ b ∈ s.acked, b ∈ (s.base.replicas node).log

instance [DecidableEq α] (s : PartitionCluster α) (node : Nat) : Decidable (s.HeldBy node) :=
  inferInstanceAs (Decidable (∀ b ∈ s.acked, _))

end

variable {s : PartitionCluster α} {c : ClusterConfig} {m n : Nat}

/-- A restart keeps the logs, and only waits from before are open after it. -/
theorem mem_log_restart (h : b ∈ (s.base.replicas m).log) :
    b ∈ ((s.restart c n).base.replicas m).log := by
  have hlog : ((s.restart c n).base.replicas m).log = (s.base.replicas m).log := withAcks_log _
  rwa [hlog]

theorem waits_restart (hw : ((s.restart c n).base.replicas m).acks.Waits o w) :
    (s.base.replicas m).acks.Waits o w := by
  have hw : (withAcks s.base.replicas n .new m).acks.Waits o w := hw
  rcases eq_or_ne m n with rfl | hne
  · rw [withAcks_self] at hw
    obtain ⟨ws, hws, -⟩ := hw
    cases hws
  · rwa [withAcks_of_ne _ hne] at hw

theorem produces_restart
    (hx : x ∈ (s.restart c n).base.appended ∨ x ∈ (s.restart c n).base.registered) :
    x ∈ s.base.appended ∨ x ∈ s.base.registered :=
  hx.imp (fun hx => (mem_filter.1 hx).1) fun hx => (mem_filter.1 hx).1

end PartitionCluster

/-! ## Logs and reports over a step of the replicas -/

section
variable {α : Type*} {s s' : Cluster Nat α} {action : Cluster.Action Nat α} {node m n : Nat}

/-- The node that reconciles with another one. -/
def Cluster.Action.reconciles : Cluster.Action Nat α → Option Nat
  | .reconcile follower _ => some follower
  | _ => none

/-- A log only grows, unless its node reconciles. -/
theorem Cluster.log_prefix_of_step (h : s.step action = some s')
    (hreconcile : node ∉ action.reconciles) :
    (s.replicas node).log <+: (s'.replicas node).log := by
  have happend : ∀ (n : Nat) (bs : List (Batch α)), (s.replicas node).log <+:
      (withReplica s.replicas n ((s.replicas n).append bs) node).log := by
    intro n bs
    rcases eq_or_ne node n with rfl | hne
    · rw [withReplica_self]
      exact prefix_append _ _
    · rw [withReplica_of_ne _ hne]
  have hacks : ∀ (n : Nat) (t : IsrAckTracker Nat (Batch α)),
      (s.replicas node).log <+: (withAcks s.replicas n t node).log := by
    intro n t
    rw [withAcks_log]
  cases action with
  | append records =>
    rw [Cluster.step] at h
    split at h <;> cases h
    exact happend _ _
  | register | selfAck =>
    obtain ⟨x, -, rfl⟩ := map_eq_some_iff.1 h
    exact hacks _ _
  | fetch follower target count =>
    obtain ⟨-, rfl⟩ := of_not_guard h
    exact hacks _ _
  | apply i =>
    obtain ⟨x, -, rfl⟩ := map_eq_some_iff.1 h
    exact happend _ _
  | elect n =>
    cases h
    exact prefix_rfl
  | reconcile follower target =>
    obtain ⟨-, rfl⟩ := of_not_guard h
    have hne : node ≠ follower := fun heq => hreconcile (heq ▸ rfl)
    dsimp only
    rw [withReplica_of_ne _ hne]
  | cleanupExpired n now timeout =>
    cases h
    exact hacks _ _

theorem Cluster.leader_of_step (h : s.step action = some s') (helect : ∀ n, action ≠ .elect n) :
    s'.leader = s.leader := by
  cases action with
  | append records =>
    rw [Cluster.step] at h
    split at h <;> cases h
    rfl
  | register | selfAck | apply =>
    obtain ⟨x, -, rfl⟩ := map_eq_some_iff.1 h
    rfl
  | fetch | reconcile =>
    obtain ⟨-, rfl⟩ := of_not_guard h
    rfl
  | elect n => exact absurd rfl (helect n)
  | cleanupExpired =>
    cases h
    rfl

/-- What a step can do to the trackers: nothing, with nothing answered, or one operation on one of
them, which is a new wait of a produce, a report of a produce or a fetch, or the reaper. -/
theorem Cluster.acks_of_step (h : s.step action = some s') :
    ((∀ m, (s'.replicas m).acks = (s.replicas m).acks) ∧ s'.released = []) ∨
    ∃ n res, (∀ m, (s'.replicas m).acks = (withAcks s.replicas n res.1 m).acks) ∧
      s'.released = res.2.map (n, ·) ∧
      ((∃ i quorumSize now b, action = .register i quorumSize now ∧ (n, b) ∈ s.appended ∧
          res = (s.replicas n).acks.registerWait (b.lastOffset + 1) quorumSize b now) ∨
        (∃ offset node, res = (s.replicas n).acks.recordAck offset node ∧
          ((∃ b, (n, b) ∈ s.registered ∧ node = n) ∨ ∃ count, action = .fetch node n count)) ∨
        ∃ now timeout, res = ((s.replicas n).acks.cleanupExpired now timeout, [])) := by
  cases action with
  | append records =>
    rw [Cluster.step] at h
    split at h <;> cases h
    exact .inl ⟨fun _ => withReplica_acks rfl, rfl⟩
  | register i quorumSize now =>
    obtain ⟨x, hx, rfl⟩ := map_eq_some_iff.1 h
    exact .inr ⟨x.1, _, fun _ => rfl, rfl,
      .inl ⟨i, quorumSize, now, x.2, rfl, mem_of_getElem? hx, rfl⟩⟩
  | selfAck i =>
    obtain ⟨x, hx, rfl⟩ := map_eq_some_iff.1 h
    exact .inr ⟨x.1, _, fun _ => rfl, rfl,
      .inr (.inl ⟨_, _, rfl, .inl ⟨x.2, mem_of_getElem? hx, rfl⟩⟩)⟩
  | fetch follower target count =>
    obtain ⟨-, rfl⟩ := of_not_guard h
    exact .inr ⟨target, _, fun _ => rfl, rfl, .inr (.inl ⟨_, _, rfl, .inr ⟨count, rfl⟩⟩)⟩
  | apply i =>
    obtain ⟨x, -, rfl⟩ := map_eq_some_iff.1 h
    exact .inl ⟨fun _ => withReplica_acks rfl, rfl⟩
  | elect n =>
    cases h
    exact .inl ⟨fun _ => rfl, rfl⟩
  | reconcile follower target =>
    obtain ⟨-, rfl⟩ := of_not_guard h
    exact .inl ⟨fun _ => withReplica_acks (Replica.reconcileWith_acks _ _), rfl⟩
  | cleanupExpired n now timeout =>
    cases h
    exact .inr ⟨n, _, fun _ => rfl, rfl, .inr (.inr ⟨now, timeout, rfl⟩)⟩

/-- A wait of a node, or one that the step registers. -/
def Cluster.WaitsAt (s : Cluster Nat α) (action : Cluster.Action Nat α) (n : Nat)
    (w : WaitEntry (Batch α)) : Prop :=
  (∃ o, (s.replicas n).acks.Waits o w) ∨
    ∃ i, action = .register i w.quorumSize w.registeredAt ∧ (n, w.tx) ∈ s.appended

theorem Cluster.waits_of_step (h : s.step action = some s')
    (hw : (s'.replicas m).acks.Waits o w) : s.WaitsAt action m w := by
  rcases Cluster.acks_of_step h with ⟨hacks, -⟩ | ⟨n, res, hacks, -, hres⟩
  · rw [hacks] at hw
    exact .inl ⟨o, hw⟩
  rw [hacks] at hw
  rcases eq_or_ne m n with rfl | hne
  · rw [withAcks_self] at hw
    rcases hres with ⟨i, quorumSize, now, b, rfl, hb, rfl⟩ | ⟨offset, node, rfl, -⟩ |
      ⟨now, timeout, rfl⟩
    · rcases IsrAckTracker.waits_registerWait hw with hw | ⟨-, rfl⟩
      · exact .inl ⟨o, hw⟩
      · exact .inr ⟨i, rfl, hb⟩
    · exact .inl ⟨o, IsrAckTracker.waits_recordAck hw⟩
    · exact .inl ⟨o, IsrAckTracker.waits_cleanupExpired hw⟩
  · rw [withAcks_of_ne _ hne] at hw
    exact .inl ⟨o, hw⟩

theorem Cluster.waits_of_released (h : s.step action = some s') (hx : x ∈ s'.released) :
    s.WaitsAt action x.1 x.2 := by
  rcases Cluster.acks_of_step h with ⟨-, hreleased⟩ | ⟨n, res, -, hreleased, hres⟩
  · rw [hreleased] at hx
    cases hx
  rw [hreleased] at hx
  obtain ⟨w, hw, rfl⟩ := mem_map.1 hx
  rcases hres with ⟨i, quorumSize, now, b, rfl, hb, rfl⟩ | ⟨offset, node, rfl, -⟩ |
    ⟨now, timeout, rfl⟩
  · obtain ⟨rfl, -⟩ := IsrAckTracker.mem_registerWait_released hw
    exact .inr ⟨i, rfl, hb⟩
  · obtain ⟨o, hwait, -⟩ := IsrAckTracker.mem_recordAck_released hw
    exact .inl ⟨o, hwait⟩
  · cases hw

/-- The produces under way are those from before, and that of the leader's new batch. -/
theorem Cluster.produces_of_step (h : s.step action = some s')
    (hx : x ∈ s'.appended ∨ x ∈ s'.registered) :
    (x ∈ s.appended ∨ x ∈ s.registered) ∨
      (x.1 = s.leader ∧ x.2 ∈ (s'.replicas s.leader).log) := by
  cases action with
  | append records =>
    rw [Cluster.step] at h
    split at h <;> cases h
    rcases hx with hx | hx
    · rcases mem_concat.1 hx with hx | rfl
      · exact .inl (.inl hx)
      · refine .inr ⟨rfl, ?_⟩
        dsimp only
        rw [withReplica_self]
        exact mem_concat_self
    · exact .inl (.inr hx)
  | register i quorumSize now =>
    obtain ⟨y, hy, rfl⟩ := map_eq_some_iff.1 h
    rcases hx with hx | hx
    · exact .inl (.inl (mem_of_mem_eraseIdx hx))
    · rcases mem_concat.1 hx with hx | rfl
      · exact .inl (.inr hx)
      · exact .inl (.inl (mem_of_getElem? hy))
  | selfAck i =>
    obtain ⟨y, -, rfl⟩ := map_eq_some_iff.1 h
    exact .inl (hx.imp_right mem_of_mem_eraseIdx)
  | fetch | reconcile =>
    obtain ⟨-, rfl⟩ := of_not_guard h
    exact .inl hx
  | apply i =>
    obtain ⟨y, -, rfl⟩ := map_eq_some_iff.1 h
    exact .inl hx
  | elect | cleanupExpired =>
    cases h
    exact .inl hx

end

end ChronikStream
