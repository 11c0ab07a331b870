import ChronikStream.Replication.Placement

/-!
# Failover and acknowledged records

A failover elects the first live replica of the published set, which has followers that lag behind
and is as old as its publication (`elects_lagging_follower`). What is acknowledged survives where
the log of the elected replica extends those of the live ones and only a leader answers waits
(`LongestElected`).
-/

namespace ChronikStream

open Machine List Option
open Metadata (PartitionAssignment)

/-! ## Which node answers -/

section
variable {α : Type*} {s s' : Cluster Nat α} {action : Cluster.Action Nat α} {m n : Nat}

/-- The node whose waits an action may answer. -/
def Cluster.answersAt (s : Cluster Nat α) : Cluster.Action Nat α → Option Nat
  | .register i _ _ => s.appended[i]?.map (·.1)
  | .selfAck i => s.registered[i]?.map (·.1)
  | .fetch _ target _ => some target
  | _ => none

/-- A node with no open wait and no produce under way. -/
def Cluster.Idle (s : Cluster Nat α) (n : Nat) : Prop :=
  (s.replicas n).acks.waiters.entries = [] ∧ ∀ x ∈ s.appended ++ s.registered, x.1 ≠ n

instance (s : Cluster Nat α) (n : Nat) : Decidable (s.Idle n) :=
  inferInstanceAs (Decidable (_ ∧ _))

theorem Cluster.answersAt_of_released (h : s.step action = some s') (hx : x ∈ s'.released) :
    x.1 ∈ s.answersAt action := by
  cases action with
  | append records =>
    rw [Cluster.step] at h
    split at h <;> cases h
    cases hx
  | register | selfAck =>
    obtain ⟨y, hy, rfl⟩ := map_eq_some_iff.1 h
    obtain ⟨w, -, rfl⟩ := mem_map.1 hx
    exact map_eq_some_iff.2 ⟨y, hy, rfl⟩
  | fetch follower target count =>
    obtain ⟨-, rfl⟩ := of_not_guard h
    obtain ⟨w, -, rfl⟩ := mem_map.1 hx
    exact rfl
  | apply i =>
    obtain ⟨y, -, rfl⟩ := map_eq_some_iff.1 h
    cases hx
  | reconcile =>
    obtain ⟨-, rfl⟩ := of_not_guard h
    cases hx
  | elect | cleanupExpired =>
    cases h
    cases hx

theorem Cluster.WaitsAt.not_idle (h : s.WaitsAt action n w) : ¬ s.Idle n := by
  rintro ⟨hwaiters, hproduces⟩
  rcases h with ⟨o, ws, hws, -⟩ | ⟨i, -, happended⟩
  · rw [hwaiters] at hws
    cases hws
  · exact hproduces _ (mem_append_left _ happended) rfl

end

namespace PartitionCluster

variable {α : Type*} {s s' : PartitionCluster α} {base' : Cluster Nat α} {c : ClusterConfig}

/-- The runs without the rebalancer in which, whenever a failover is written, a live replica holds
every acknowledged batch. -/
def LiveHolder (s : PartitionCluster α) : Action α → Prop
  | .failover i => ∀ x ∈ s.planned[i]?, ∃ node ∈ x.2.liveReplicas, s.HeldBy node
  | .rebalance _ => False
  | _ => True

instance [DecidableEq α] : DecidableRel (LiveHolder (α := α)) := fun _ _ => by
  unfold LiveHolder
  split <;> infer_instance

/-- A failover elects a replica whose log extends those of the live ones; a publication is written
while the leader it has read leads; waits are answered by the leader only; and a node reconciles
once it no longer leads and its own produces are over. -/
def LongestElected (s : PartitionCluster α) : Action α → Prop
  | .failover i => ∀ x ∈ s.planned[i]?, ∀ node ∈ x.2.liveReplicas,
      (s.base.replicas node).log <+: (s.base.replicas x.2.to_).log
  | .publish i _ => ∀ a ∈ s.publishing[i]?, a.leaderId = s.assignment.leaderId
  | .replicas action =>
    (∀ n ∈ s.base.answersAt action, n = s.assignment.leaderId ∨ s.base.Idle n) ∧
      ∀ n ∈ action.reconciles, n ≠ s.assignment.leaderId ∧ s.base.Idle n
  | _ => True

instance [DecidableEq α] : DecidableRel (LongestElected (α := α)) := fun _ _ => by
  unfold LongestElected
  split <;> infer_instance

/-! ## Steps and runs -/

/-- What a node produces and waits for is in its own log, and what is acknowledged in the
leader's. -/
structure LeaderHolds (s : PartitionCluster α) : Prop where
  produces : ∀ x, x ∈ s.base.appended ∨ x ∈ s.base.registered → x.2 ∈ (s.base.replicas x.1).log
  waits : ∀ m o w, (s.base.replicas m).acks.Waits o w → w.tx ∈ (s.base.replicas m).log
  acked : s.HeldBy s.assignment.leaderId

theorem LeaderHolds.tx_mem (h : s.LeaderHolds) (hw : s.base.WaitsAt action m w) :
    w.tx ∈ (s.base.replicas m).log := by
  rcases hw with ⟨o, hw⟩ | ⟨i, -, happended⟩
  · exact h.waits m o w hw
  · exact h.produces _ (.inl happended)

theorem LongestElected.log_prefix (hok : s.LongestElected (.replicas action))
    (hs : s.base.step action = some base') (hn : n = s.assignment.leaderId ∨ ¬ s.base.Idle n) :
    (s.base.replicas n).log <+: (base'.replicas n).log := by
  refine Cluster.log_prefix_of_step hs fun hreconciles => ?_
  obtain ⟨hne, hidle⟩ := hok.2 n hreconciles
  exact hn.elim hne fun hbusy => hbusy hidle

/-- A wait that is answered is one of the leader's. -/
theorem LongestElected.eq_leader (hok : s.LongestElected (.replicas action))
    (hs : s.base.step action = some base') (hx : x ∈ base'.released) : x.1 = s.assignment.leaderId := by
  have hanswers := Cluster.answersAt_of_released hs hx
  exact (hok.1 x.1 hanswers).resolve_right (Cluster.waits_of_released hs hx).not_idle

theorem LeaderHolds.replicas (h : s.LeaderHolds) (hok : s.LongestElected (.replicas action))
    (hs : s.replicasStep action = some s') : s'.LeaderHolds := by
  obtain ⟨base, hbase, rfl⟩ := map_eq_some_iff.1 hs
  have hlog := fun n => hok.log_prefix (n := n) hbase
  constructor
  case produces =>
    intro x hx
    rcases Cluster.produces_of_step hbase hx with hx | ⟨hleader, hx⟩
    · refine (hlog x.1 (.inr fun hidle => ?_)).subset (h.produces x hx)
      exact hidle.2 x (mem_append.2 hx) rfl
    · rwa [hleader]
  case waits =>
    intro m o w hw
    have hw := Cluster.waits_of_step hbase hw
    exact (hlog m (.inr hw.not_idle)).subset (h.tx_mem hw)
  case acked =>
    intro b hb
    refine (hlog s.assignment.leaderId (.inl rfl)).subset ?_
    rcases mem_append.1 hb with hb | hb
    · exact h.acked b hb
    · obtain ⟨x, hx, rfl⟩ := mem_map.1 hb
      rw [← hok.eq_leader hbase hx]
      exact h.tx_mem (Cluster.waits_of_released hbase hx)

/-- Logs, produces and waits do not change when another node is named the leader. -/
theorem LeaderHolds.assign {a : PartitionAssignment} (h : s.LeaderHolds) (ha : s.HeldBy a.leaderId) :
    (s.assign a).LeaderHolds :=
  ⟨h.produces, h.waits, ha⟩

theorem LeaderHolds.step (h : s.LeaderHolds) (hlive : s.LiveHolder act) (hok : s.LongestElected act)
    (hs : s.step c act = some s') : s'.LeaderHolds := by
  cases act with
  | replicas action => exact h.replicas hok (ite_none_right_eq_some.1 hs).2
  | restart node =>
    cases hs
    exact ⟨fun x hx => mem_log_restart (h.produces x (produces_restart hx)),
      fun m o w hw => mem_log_restart (h.waits m o w (waits_restart hw)),
      fun b hb => mem_log_restart (h.acked b hb)⟩
  | publish i leaderOffset =>
    obtain ⟨a, ha, rfl⟩ := map_eq_some_iff.1 hs
    have h : LeaderHolds { s with publishing := s.publishing.eraseIdx i } := { h with }
    dsimp only
    split
    · exact h
    · refine h.assign fun b hb => ?_
      dsimp only
      rw [hok a ha]
      exact h.acked b hb
  | failover i =>
    obtain ⟨x, hx, rfl⟩ := map_eq_some_iff.1 hs
    have h : LeaderHolds { s with planned := s.planned.eraseIdx i } := { h with }
    obtain ⟨node, hnode, hheld⟩ := hlive x hx
    exact h.assign fun b hb => (hok x hx node hnode).subset (hheld b hb)
  | rebalance ok => exact hlive.elim
  | tick _ | readAssignment | plan _ | removeMember _ =>
    cases hs
    exact { h with }
  | addMember node =>
    obtain ⟨-, rfl⟩ := of_not_guard hs
    exact { h with }
  | poll nodes =>
    obtain ⟨-, hs⟩ := ite_none_right_eq_some.1 hs
    split at hs <;> cases hs <;> exact { h with }

end PartitionCluster

end ChronikStream
