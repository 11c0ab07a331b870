import ChronikStream.Acl.DenyWins
import ChronikStream.Acl.Router
import ChronikStream.Replication.Placement

/-!
# What a Fetch request tells the leader

A Fetch request with a replica id is taken for a follower's: `fetch_partition` tells both trackers
its position and consults no list of replicas. The in-sync set is computed over the assignment, but
a quorum counts every id that has reported (`client_fetch_acknowledges`).
-/

namespace ChronikStream

open Machine Router Option Function IsrTracker
open Metadata (PartitionAssignment)

/-- The trackers of a leader. `released` is ghost state: the waits of a partition that were answered
with success. -/
structure LeaderTrackers (τ : Type*) where
  acks : PartitionKey → IsrAckTracker Nat τ
  isr : IsrTracker
  released : PartitionKey → List (WaitEntry τ)

namespace LeaderTrackers

variable {τ : Type*}

inductive Action (τ : Type*) where
  /-- The partition `j` of the topic `i` of a request is served. -/
  | fetchPartition (ctx : ConnectionContext) (request : FetchRequest) (i j nowMs : Nat)
  | registerWait (tp : PartitionKey) (offset : Int) (quorumSize : Nat) (tx : τ) (nowMs : Nat)
  | selfAck (tp : PartitionKey) (offset : Int)
  | cleanupExpired (nowMs timeout : Nat)

def recordAck (s : LeaderTrackers τ) (tp : PartitionKey) (offset : Int) (node : Nat) : LeaderTrackers τ :=
  let r := (s.acks tp).recordAck offset node
  { s with
    acks := update s.acks tp r.1
    released := update s.released tp (s.released tp ++ r.2) }

def registerWait (s : LeaderTrackers τ) (tp : PartitionKey) (offset : Int) (quorumSize : Nat) (tx : τ)
    (nowMs : Nat) : LeaderTrackers τ :=
  let r := (s.acks tp).registerWait offset quorumSize tx nowMs
  { s with
    acks := update s.acks tp r.1
    released := update s.released tp (s.released tp ++ r.2) }

/-- What `fetch_partition` does before it validates the partition. -/
def fetchPartition (s : LeaderTrackers τ) (replicaId : Int) (tp : PartitionKey) (fetchOffset : Int)
    (nowMs : Nat) : LeaderTrackers τ :=
  if 0 ≤ replicaId then
    let node := replicaId.toNat
    let isr := (s.isr.updateFollowerOffset node tp fetchOffset nowMs).recordNodeAlive node nowMs
    { s with isr := isr }.recordAck tp fetchOffset node
  else s

/-- `handle_fetch_request` lets a request through if none of its topics is denied. -/
def ReadAllowed (a : Authorizer) (ctx : ConnectionContext) (request : FetchRequest) : Prop :=
  ∀ topic ∈ request.topics, a.authorize ctx ⟨(.topic, topic.name), .read⟩ = true
deriving Decidable

/-- Partitions are served one by one and requests interleave; an error ends a request early, and one
that has waited is served twice. -/
def step (a : Authorizer) (nodeId : Nat) (s : LeaderTrackers τ) : Action τ → Option (LeaderTrackers τ)
  | .fetchPartition ctx request i j nowMs =>
    if ReadAllowed a ctx request then
      request.topics[i]?.bind fun topic => topic.partitions[j]?.map fun p =>
        s.fetchPartition request.replicaId (topic.name, p.partition) p.fetchOffset nowMs
    else none
  | .registerWait tp offset quorumSize tx nowMs => some (s.registerWait tp offset quorumSize tx nowMs)
  | .selfAck tp offset => some (s.recordAck tp offset nodeId)
  | .cleanupExpired nowMs timeout => some { s with acks := fun tp => (s.acks tp).cleanupExpired nowMs timeout }

def machine (a : Authorizer) (nodeId maxLagEntries maxLagMs : Nat) :
    Machine (LeaderTrackers τ) (Action τ) where
  init := ⟨fun _ => .new, .new maxLagEntries maxLagMs, fun _ => []⟩
  step := step a nodeId

/-! ## Fetches that are not of another replica -/

/-- The id of a replica of the partition that is not its leader. -/
def OtherReplica (assignment : PartitionAssignment) (replicaId : Int) : Prop :=
  ∃ node ∈ assignment.replicas, node ≠ assignment.leaderId ∧ replicaId = node

/-- The positions and the waits of a partition are the same, and no wait of it was answered. -/
structure SameAcks (s s' : LeaderTrackers τ) (tp : PartitionKey) : Prop where
  positions : ∀ node, (s'.acks tp).nodeOffsets.lookup node = (s.acks tp).nodeOffsets.lookup node
  waiters : (s'.acks tp).waiters = (s.acks tp).waiters
  released : s'.released tp = s.released tp

/-- The in-sync set of the partition is the same, for every end of the leader's log and at every
time. -/
def SameInSync (s s' : LeaderTrackers τ) (tp : PartitionKey) (assignment : PartitionAssignment) : Prop :=
  ∀ leaderOffset nowMs,
    inSyncReplicas s'.isr tp leaderOffset assignment.replicas assignment.leaderId nowMs =
      inSyncReplicas s.isr tp leaderOffset assignment.replicas assignment.leaderId nowMs

/-- The position was reported under this id before, or one ahead of it. -/
def AlreadyReported (s : LeaderTrackers τ) (tp : PartitionKey) (node : Nat) (offset : Int) : Prop :=
  ∃ k ∈ (s.acks tp).nodeOffsets.lookup node, offset ≤ k

/-- A fetch that names no replica. -/
def Action.ofConsumer : Action τ → Bool
  | .fetchPartition _ request _ _ _ => request.replicaId < 0
  | _ => false

variable {s s' : LeaderTrackers τ} {tp : PartitionKey} {offset replicaId : Int} {nowMs : Nat}
  {assignment : PartitionAssignment}

theorem SameAcks.refl (s : LeaderTrackers τ) (tp : PartitionKey) : s.SameAcks s tp :=
  ⟨fun _ => rfl, rfl, rfl⟩

/-! ## The quorum tracker -/

theorem sameAcks_isr_iff : s.SameAcks { s' with isr := t } tp ↔ s.SameAcks s' tp :=
  ⟨fun h => ⟨h.positions, h.waiters, h.released⟩, fun h => ⟨h.positions, h.waiters, h.released⟩⟩

theorem sameAcks_recordAck_of_ne (h : tp ≠ tp') : s.SameAcks (s.recordAck tp' offset node) tp := by
  have hacks : (s.recordAck tp' offset node).acks tp = s.acks tp := update_of_ne h ..
  have hreleased : (s.recordAck tp' offset node).released tp = s.released tp := update_of_ne h ..
  refine ⟨fun n => ?_, ?_, hreleased⟩ <;> rw [hacks]

/-- A report that is not ahead changes nothing; any other one shows in the position of its id. -/
theorem sameAcks_recordAck_iff :
    s.SameAcks (s.recordAck tp offset node) tp ↔ s.AlreadyReported tp node offset := by
  have hacks : (s.recordAck tp offset node).acks tp = ((s.acks tp).recordAck offset node).1 :=
    update_self ..
  have hreleased : (s.recordAck tp offset node).released tp =
      s.released tp ++ ((s.acks tp).recordAck offset node).2 := update_self ..
  constructor
  · intro h
    have hsame := h.positions node
    rw [hacks, IsrAckTracker.recordAck] at hsame
    split at hsame
    case isTrue hlt =>
      rw [AList.lookup_insert] at hsame
      rw [← hsame] at hlt
      exact absurd hlt (lt_irrefl _)
    case isFalse hle =>
      rw [AList.lookup_insert] at hsame
      exact ⟨_, hsame.symm, not_lt.1 hle⟩
  · rintro ⟨k, hk, hle⟩
    have hslot : ((s.acks tp).nodeOffsets.lookup node).getD Bytes.i64Min = k := by
      rw [mem_def.1 hk, getD_some]
    have hrecord : (s.acks tp).recordAck offset node =
        ({ s.acks tp with nodeOffsets := (s.acks tp).nodeOffsets.insert node k }, []) := by
      rw [IsrAckTracker.recordAck]
      rw [hslot, if_neg (not_lt.2 hle)]
    refine ⟨fun n => ?_, ?_, ?_⟩
    · rw [hacks, hrecord]
      rcases eq_or_ne n node with rfl | hne
      · exact (AList.lookup_insert _).trans hk.symm
      · exact AList.lookup_insert_ne hne
    · rw [hacks, hrecord]
    · rw [hreleased, hrecord, List.append_nil]

/-! ## The in-sync tracker -/

/-- The in-sync set is read off the other replicas of the partition: the leader is in it in any
case. -/
theorem inSyncReplicas_congr
    (hknown : ∀ n ∈ replicas, n ≠ leaderId → (t'.follower n tp = none ↔ t.follower n tp = none))
    (hsync : ∀ n ∈ replicas, n ≠ leaderId →
      t'.syncState n tp leaderOffset nowMs = t.syncState n tp leaderOffset nowMs) :
    inSyncReplicas t' tp leaderOffset replicas leaderId nowMs =
      inSyncReplicas t tp leaderOffset replicas leaderId nowMs := by
  have hunknown : t'.IsUnknownForAll tp replicas leaderId ↔ t.IsUnknownForAll tp replicas leaderId :=
    forall₂_congr fun n hn => imp_congr_right fun hne => hknown n hn hne
  have hmem : ∀ (t : IsrTracker) (n : Nat), n ∈ replicas →
      (n ∈ (if leaderId ∈ t.getIsr tp leaderOffset replicas nowMs
        then t.getIsr tp leaderOffset replicas nowMs
        else leaderId :: t.getIsr tp leaderOffset replicas nowMs) ↔
      n = leaderId ∨ t.syncState n tp leaderOffset nowMs = .inSync) := by
    intro t n hn
    have hget : ∀ m, m ∈ t.getIsr tp leaderOffset replicas nowMs ↔
        m ∈ replicas ∧ t.syncState m tp leaderOffset nowMs = .inSync := by
      intro m
      rw [getIsr, List.mem_filter, decide_eq_true_eq]
    split
    case isTrue hleader =>
      rw [hget]
      constructor
      · exact fun h => .inr h.2
      · rintro (rfl | h)
        · exact (hget n).1 hleader
        · exact ⟨hn, h⟩
    case isFalse =>
      rw [List.mem_cons, hget]
      exact or_congr_right (and_iff_right hn)
  rw [inSyncReplicas, inSyncReplicas]
  by_cases h : t.IsUnknownForAll tp replicas leaderId
  · rw [if_pos h, if_pos (hunknown.2 h)]
  rw [if_neg h, if_neg (fun h' => h (hunknown.1 h'))]
  refine congrArg some (List.filter_congr fun n hn => ?_)
  rw [decide_eq_decide, hmem t' n hn, hmem t n hn]
  by_cases hne : n = leaderId
  · simp [hne]
  · rw [hsync n hn hne]

theorem syncState_report_of_ne {t : IsrTracker} (h : n ≠ node) :
    ((t.updateFollowerOffset node tp' fetchOffset atMs).recordNodeAlive node atMs).syncState n tp
      leaderOffset nowMs = t.syncState n tp leaderOffset nowMs := by
  have hfollower : ((t.updateFollowerOffset node tp' fetchOffset atMs).recordNodeAlive node atMs).follower n tp =
      t.follower n tp := follower_updateFollowerOffset_of_ne fun heq => h heq.1.symm
  have halive : ((t.updateFollowerOffset node tp' fetchOffset atMs).recordNodeAlive node atMs).NodeIsAlive n nowMs ↔
      t.NodeIsAlive n nowMs := by
    rw [IsrTracker.NodeIsAlive, recordNodeAlive, AList.lookup_insert_ne h]
    rfl
  rw [syncState, syncState, hfollower]
  split
  · rfl
  · simp only [halive]
    rfl

/-- The in-sync set of every partition is unchanged by a fetch that is not of another replica of it.
-/
theorem sameInSync_fetchPartition {fetchOffset : Int} (h : ¬ OtherReplica assignment replicaId) :
    s.SameInSync (s.fetchPartition replicaId tp' fetchOffset nowMs) tp assignment := by
  intro leaderOffset nowMs'
  rw [fetchPartition]
  split
  case isFalse => rfl
  case isTrue hpos =>
  have hne : ∀ n ∈ assignment.replicas, n ≠ assignment.leaderId → n ≠ replicaId.toNat := by
    intro n hn hleader heq
    exact h ⟨n, hn, hleader, by omega⟩
  apply inSyncReplicas_congr
  · intro n hn hleader
    have hother : ¬ (replicaId.toNat = n ∧ tp' = tp) := fun heq => hne n hn hleader heq.1.symm
    rw [recordAck, follower_recordNodeAlive, follower_updateFollowerOffset_of_ne hother]
  · exact fun n hn hleader => syncState_report_of_ne (hne n hn hleader)

/-! ## Runs -/

theorem fetchPartition_of_nonneg (h : 0 ≤ replicaId) :
    s.fetchPartition replicaId tp fetchOffset nowMs =
      { s.recordAck tp fetchOffset replicaId.toNat with
        isr := (s.isr.updateFollowerOffset replicaId.toNat tp fetchOffset nowMs).recordNodeAlive
          replicaId.toNat nowMs } :=
  if_pos h

theorem sameAcks_fetchPartition_iff :
    s.SameAcks (s.fetchPartition replicaId tp' fetchOffset nowMs) tp ↔
      replicaId < 0 ∨ tp ≠ tp' ∨ s.AlreadyReported tp replicaId.toNat fetchOffset := by
  by_cases hpos : 0 ≤ replicaId
  · rw [fetchPartition_of_nonneg hpos, sameAcks_isr_iff, or_iff_right (not_lt.2 hpos)]
    by_cases htp : tp = tp'
    · subst htp
      rw [sameAcks_recordAck_iff, or_iff_right (not_not.2 rfl)]
    · exact ⟨fun _ => .inl htp, fun _ => sameAcks_recordAck_of_ne htp⟩
  · rw [fetchPartition, if_neg hpos]
    exact ⟨fun _ => .inl (not_le.1 hpos), fun _ => .refl s tp⟩

theorem step_ofConsumer (h : action.ofConsumer = true)
    (hstep : s.step a nodeId action = some s') : s' = s := by
  cases action with
  | fetchPartition ctx request i j nowMs =>
    obtain ⟨-, hstep⟩ := ite_none_right_eq_some.1 hstep
    obtain ⟨topic, -, hstep⟩ := bind_eq_some_iff.1 hstep
    obtain ⟨p, -, rfl⟩ := map_eq_some_iff.1 hstep
    exact if_neg (not_le.2 (of_decide_eq_true h))
  | registerWait | selfAck | cleanupExpired => cases h

/-- A fetch that is not of another replica leaves the in-sync set unchanged, and the waits and
positions exactly if it names no replica, is for another partition, or reports nothing new; without
the fetches that name none the run would have been the same. -/
theorem foreign_fetch_unchanged {a : Authorizer} {nodeId maxLagEntries maxLagMs : Nat}
    {as : List (Action τ)} {ctx : ConnectionContext} {request : FetchRequest} {topic : FetchTopic}
    {p : FetchPartition} {i j : Nat}
    (hrun : (machine a nodeId maxLagEntries maxLagMs).runWith Always
      (machine a nodeId maxLagEntries maxLagMs).init as = some s)
    (htopic : request.topics[i]? = some topic) (hp : topic.partitions[j]? = some p)
    (hforeign : ¬ OtherReplica assignment request.replicaId)
    (hstep : s.step a nodeId (.fetchPartition ctx request i j nowMs) = some s') :
    s.SameInSync s' tp assignment ∧
    (s.SameAcks s' tp ↔ request.replicaId < 0 ∨ tp ≠ (topic.name, p.partition) ∨
      s.AlreadyReported tp request.replicaId.toNat p.fetchOffset) ∧
    (machine a nodeId maxLagEntries maxLagMs).runWith Always
      (machine a nodeId maxLagEntries maxLagMs).init (as.filter fun action => !action.ofConsumer) =
        some s := by
  obtain ⟨-, hstep⟩ := ite_none_right_eq_some.1 hstep
  rw [htopic, bind_some, hp] at hstep
  cases hstep
  refine ⟨sameInSync_fetchPartition hforeign, sameAcks_fetchPartition_iff, ?_⟩
  exact runWith_filter_of_silent (fun _ _ _ hconsumer hstep => step_ofConsumer hconsumer hstep) hrun

/-! ## A client under an id of its own -/

/-- A leader on which `mallory` may read the topic `orders`. -/
def readOrdersAcls : Authorizer :=
  ⟨AclStore.ofBindings false [] [⟨.topic, "orders", .literal, "User:mallory", "*", .read, .allow⟩],
    [(.topic, "orders")]⟩

def malloryReader : ConnectionContext := ⟨.required, .authenticated "mallory", "10.0.0.9"⟩

def fetchOrdersAt10 (replicaId : Int) : FetchRequest :=
  ⟨replicaId, 500, 1, 1048576, 0, [⟨"orders", [⟨0, -1, 10, -1, 1048576⟩]⟩]⟩

/-- A produce with acks=all, which waits for two of the replicas to have come to 10. -/
def waitForTwo : List (Action Nat) := [.registerWait ("orders", 0) 10 2 7 0, .selfAck ("orders", 0) 10]

def ordersOnThree : PartitionAssignment := ⟨"orders", 0, 1, true, [1, 2, 3], 1, 0, [1, 2, 3]⟩

theorem not_otherReplica_orders (h2 : replicaId ≠ 2) (h3 : replicaId ≠ 3) :
    ¬ OtherReplica ordersOnThree replicaId := by
  rintro ⟨node, hnode, hleader, rfl⟩
  have hmem : node = 1 ∨ node = 2 ∨ node = 3 := by simpa [ordersOnThree] using hnode
  rcases hmem with rfl | rfl | rfl
  · exact hleader rfl
  · exact h2 rfl
  · exact h3 rfl

/-- A consumer reads while the produce waits. -/
theorem foreign_fetch_unchanged_consumer : ∃ s s' : LeaderTrackers Nat,
    (machine readOrdersAcls 1 1000 10000).runWith Always (machine readOrdersAcls 1 1000 10000).init
      (waitForTwo ++ [.fetchPartition malloryReader (fetchOrdersAt10 (-1)) 0 0 5]) = some s ∧
    s.step readOrdersAcls 1 (.fetchPartition malloryReader (fetchOrdersAt10 (-1)) 0 0 6) = some s' ∧
    s.SameInSync s' ("orders", 0) ordersOnThree ∧ s.SameAcks s' ("orders", 0) ∧
    (machine readOrdersAcls 1 1000 10000).runWith Always (machine readOrdersAcls 1 1000 10000).init
      waitForTwo = some s := by
  have hallowed : ReadAllowed readOrdersAcls malloryReader (fetchOrdersAt10 (-1)) := by decide +kernel
  obtain ⟨s, hrun⟩ := isSome_iff_exists.1
    (show ((machine readOrdersAcls 1 1000 10000).runWith Always (machine readOrdersAcls 1 1000 10000).init
      (waitForTwo ++ [.fetchPartition malloryReader (fetchOrdersAt10 (-1)) 0 0 5])).isSome by decide +kernel)
  have hstep : s.step readOrdersAcls 1 (.fetchPartition malloryReader (fetchOrdersAt10 (-1)) 0 0 6) = some s := by
    rfl
  have hforeign : ¬ OtherReplica ordersOnThree (-1) := not_otherReplica_orders (by decide) (by decide)
  obtain ⟨hsync, hacks, hpurged⟩ := foreign_fetch_unchanged hrun rfl rfl hforeign hstep
  exact ⟨s, s, hrun, hstep, hsync, hacks.2 (.inl (by decide)), hpurged⟩

/-- A client fetches under the id 99, which is no replica's, and the produce is acknowledged. -/
theorem client_fetch_acknowledges : ∃ s s' : LeaderTrackers Nat,
    Reaches (machine readOrdersAcls 1 1000 10000) Always s ∧
    ¬ OtherReplica ordersOnThree (fetchOrdersAt10 99).replicaId ∧
    s.step readOrdersAcls 1 (.fetchPartition malloryReader (fetchOrdersAt10 99) 0 0 5) = some s' ∧
    s.released ("orders", 0) = [] ∧ (s'.released ("orders", 0)).map (·.tx) = [7] := by
  obtain ⟨s, hs, hempty, hstep⟩ := exists_reaches_of_run (machine readOrdersAcls 1 1000 10000) Always waitForTwo
    (fun s => (s.released ("orders", 0)).isEmpty ∧
      (s.step readOrdersAcls 1 (.fetchPartition malloryReader (fetchOrdersAt10 99) 0 0 5)).any
        fun s' => (s'.released ("orders", 0)).map (·.tx) = [7]) (by decide +kernel)
  obtain ⟨s', hs', hreleased⟩ := (any_eq_true ..).1 hstep
  exact ⟨s, s', hs, not_otherReplica_orders (by decide) (by decide), hs', List.isEmpty_iff.1 hempty,
    of_decide_eq_true hreleased⟩

end LeaderTrackers

end ChronikStream
