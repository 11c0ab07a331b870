import ChronikStream.ConsumerGroup.Membership
import ChronikStream.Metadata.Store

/-!
# Offset commits and generations

`commit_offsets` compares the generation and the member with the group, but requests of the network
go to `handle_offset_commit`, which writes what it is sent, partition by partition and without a
lock. `commits_fenced` is for runs in which nobody leaves and no rebalance starts between a member's
SyncGroup and the write of what it commits.
-/

namespace ChronikStream

open Machine Option
open Metadata (ConsumerOffset MetadataState asU32)

/-! ## The commits -/

structure PartitionCommit where
  topic : String
  partitionIndex : Int
  committedOffset : Int
  committedMetadata : Option String

def PartitionCommit.offset (p : PartitionCommit) (groupId : String) (timestamp : Int) : ConsumerOffset :=
  ⟨groupId, p.topic, asU32 p.partitionIndex, p.committedOffset, p.committedMetadata, timestamp⟩

/-- A request of the network: the partitions that are not written yet, and the error codes of the others. -/
structure InFlightCommit where
  memberId : String
  generationId : Int
  remaining : List PartitionCommit
  errorCodes : List Int

/-- A commit that was accepted, with the group as it was then. -/
structure AcceptedCommit where
  memberId : String
  generationId : Int
  offset : ConsumerOffset
  group : Option ConsumerGroup

def ConsumerGroup.commitError (g : ConsumerGroup) (memberId : String) (generationId : Int)
    (memberEpoch : Option Int) : Int :=
  if g.generationId ≠ generationId then 27
  else if (g.members.get? memberId).isNone then 25
  else if ∃ epoch ∈ memberEpoch, ∃ m ∈ g.members.get? memberId, m.memberEpoch ≠ epoch then 78
  else 0

/-- A group, the stored offsets, and the requests on their way. Ghost state are the commits that were
accepted, and the members whose SyncGroup was not refused, with its generation, since a member was last
removed or a rebalance started. -/
structure OffsetCommits where
  manager : GroupManager
  metadata : MetadataState
  inFlight : List InFlightCommit
  accepted : List AcceptedCommit
  synced : List (String × Int)

namespace OffsetCommits

/-- Writes have whether they succeed. -/
inductive Action where
  | group (action : GroupManager.Action)
  | offsetCommit (memberId : String) (generationId : Int) (partitions : List PartitionCommit)
  | write (request : Nat) (timestamp : Int) (ok : Bool)
  | commitOffsets (memberId : String) (generationId : Int) (memberEpoch : Option Int)
    (partitions : List PartitionCommit) (timestamp : Int) (oks : List Bool)

section
variable (s : OffsetCommits)

def accept (memberId : String) (generationId : Int) (offset : ConsumerOffset) : OffsetCommits :=
  { s with
    metadata := s.metadata.apply ⟨0, offset.commitTimestamp, .offsetCommitted offset⟩
    accepted := s.accepted ++ [⟨memberId, generationId, offset, s.manager.group⟩] }

/-- `commit_offsets`, with its error code and those of the partitions. The lock of the groups is held. -/
def commitOffsets (groupId : String) (g : ConsumerGroup) (memberId : String)
    (generationId : Int) (memberEpoch : Option Int) (partitions : List PartitionCommit) (timestamp : Int)
    (oks : List Bool) : OffsetCommits × Int × List Int :=
  let errorCode := g.commitError memberId generationId memberEpoch
  if errorCode ≠ 0 then (s, errorCode, partitions.map fun _ => errorCode)
  else
    ((partitions.zip oks).foldl
      (fun s x => if x.2 then s.accept memberId generationId (x.1.offset groupId timestamp) else s) s,
      0, oks.map fun ok => if ok then 0 else 5)

/-- The start of `handle_offset_commit`: a group that is not in memory is created. -/
def registerGroup (manager : GroupManager) : GroupManager :=
  manager.setGroup (manager.group.getD .new)

/-- The next partition of a request of the network. -/
def write (groupId : String) (i : Nat) (timestamp : Int) (ok : Bool) : Option OffsetCommits :=
  match s.inFlight[i]? with
  | some ⟨memberId, generationId, p :: rest, errorCodes⟩ =>
    let s := { s with
      inFlight := s.inFlight.set i ⟨memberId, generationId, rest, errorCodes ++ [if ok then 0 else 1]⟩ }
    some (if ok then s.accept memberId generationId (p.offset groupId timestamp) else s)
  | _ => none

def syncedAfter : GroupManager.Action → List (String × Int)
  | .sync memberId generationId memberEpoch .. =>
    if ∃ g ∈ s.manager.group, (g.members.get? memberId).isSome ∧
        g.syncRoute memberId generationId memberEpoch ≠ .rejected then
      (memberId, generationId) :: s.synced
    else s.synced
  | .leave .. | .expire .. | .rebalanceForNewMember => []
  | .getOrCreateGroup .. | .join .. | .completeJoin | .fallback .. | .markEmpty .. => s.synced

def step (groupId : String) (s : OffsetCommits) : Action → Option OffsetCommits
  | .group action => (s.manager.step action).map fun manager =>
    { s with manager := manager, synced := s.syncedAfter action }
  | .offsetCommit memberId generationId partitions =>
    some { s with
      manager := registerGroup s.manager
      inFlight := s.inFlight ++ [⟨memberId, generationId, partitions, []⟩] }
  | .write i timestamp ok => s.write groupId i timestamp ok
  | .commitOffsets memberId generationId memberEpoch partitions timestamp oks =>
    s.manager.group.bind fun g =>
    if oks.length = partitions.length then
      some (s.commitOffsets groupId g memberId generationId memberEpoch partitions timestamp oks).1
    else none

def machine (groupId : String) (nodeId : UInt64) : Machine OffsetCommits Action where
  init := ⟨GroupManager.machine.init, .new nodeId, [], [], []⟩
  step := step groupId

/-! ## Fenced commits -/

/-- A request with a member and a generation is of a member of the group in its generation. -/
def Current (group : Option ConsumerGroup) (memberId : String) (generationId : Int) : Prop :=
  memberId ≠ "" ∧ 0 ≤ generationId → ∀ g ∈ group, g.members.entries ≠ [] →
    (g.members.get? memberId).isSome ∧ g.generationId = generationId
deriving Decidable

def Fenced : Prop := ∀ c ∈ s.accepted, Current c.group c.memberId c.generationId

def lastAccepted (accepted : List AcceptedCommit) (key : String × String × Nat) :
    Option ConsumerOffset :=
  ((accepted.filter (·.offset.key = key)).getLast?).map (·.offset)

/-- A request of the network that carries a member and a generation is written while the SyncGroup of
that member and generation counts. -/
def WrittenWhileSynced : Action → Prop
  | .write i _ _ => ∀ c ∈ s.inFlight[i]?, c.memberId ≠ "" ∧ 0 ≤ c.generationId →
    (c.memberId, c.generationId) ∈ s.synced
  | .group .. | .offsetCommit .. | .commitOffsets .. => True

end

variable {s s' : OffsetCommits} {groupId : String} {nodeId : UInt64} {manager manager' : GroupManager}
  {x : String × Int}

theorem current_of_commitError (h : g.commitError memberId generationId memberEpoch = 0) :
    Current (some g) memberId generationId := by
  rintro - g' hg' -
  cases hg'
  rw [ConsumerGroup.commitError] at h
  split at h
  case isTrue => cases h
  case isFalse hgen =>
  split at h
  case isTrue => cases h
  case isFalse hmember =>
    refine ⟨isSome_iff_ne_none.2 fun hnone => ?_, not_not.1 hgen⟩
    exact hmember (isNone_iff_eq_none.2 hnone)

/-- The group is in memory and in the generation, and the member belongs to it. -/
def HasMember (manager : GroupManager) (x : String × Int) : Prop :=
  ∃ g ∈ manager.group, (g.members.get? x.1).isSome ∧ g.generationId = x.2

theorem HasMember.current (h : HasMember manager (memberId, generationId)) :
    Current manager.group memberId generationId := by
  obtain ⟨g, hg, hmember⟩ := h
  rintro - g' hg' -
  cases (mem_def.1 hg).symm.trans hg'
  exact hmember

namespace HasMember

/-- A step that keeps the members of the group and its generation. -/
theorem of_group (h : HasMember manager x)
    (hgroup : ∀ g ∈ manager.group, ∃ g' ∈ manager'.group, g'.generationId = g.generationId ∧
      ∀ id, (g.members.get? id).isSome → (g'.members.get? id).isSome) : HasMember manager' x := by
  obtain ⟨g, hg, hmember, hgen⟩ := h
  obtain ⟨g', hg', hgen', hmembers⟩ := hgroup g hg
  exact ⟨g', hg', hmembers x.1 hmember, hgen'.trans hgen⟩

theorem of_group_eq (h : HasMember manager x) (hgroup : manager'.group = manager.group) :
    HasMember manager' x := by
  rw [HasMember, hgroup]
  exact h

theorem respond (h : HasMember manager x) : HasMember (manager.respond response) x := h.of_group_eq rfl

theorem store (h : HasMember manager x) : HasMember (manager.store group ok) x :=
  h.of_group_eq (by cases ok <;> rfl)

theorem distribute (h : HasMember manager x) (hg : g ∈ manager.group) :
    HasMember (manager.distribute g A leader) x := by
  refine h.of_group fun g' hg' => ?_
  cases (mem_def.1 hg).symm.trans hg'
  refine ⟨_, rfl, rfl, fun id hid => ?_⟩
  rw [ConsumerGroup.removeAnswered, ConsumerGroup.applyAssignments, OrderedMap.get?_mapValues,
    isSome_map]
  exact hid

theorem sync (h : HasMember manager x) (hg : g ∈ manager.group) :
    HasMember (manager.sync g memberId generationId memberEpoch A ok) x := by
  rw [GroupManager.sync]
  split
  case h_1 => exact h
  case h_2 =>
    refine h.of_group fun g' hg' => ?_
    cases (mem_def.1 hg).symm.trans hg'
    exact ⟨_, rfl, rfl, fun _ => id⟩
  case h_3 =>
    split
    · exact h.respond
    · exact (h.distribute hg).respond.store
  case h_4 => exact h.respond

end HasMember

/-- Who has synced since the last change is a member in the present generation. -/
theorem hasMember_syncedAfter (h : ∀ x ∈ s.synced, HasMember s.manager x)
    (hs : s.manager.step action = some manager) : ∀ x ∈ s.syncedAfter action, HasMember manager x := by
  cases action with
  | getOrCreateGroup ok =>
    intro x hx
    cases hs
    refine (h x hx).of_group fun g hg => ⟨g, ?_, rfl, fun _ => id⟩
    rw [GroupManager.getOrCreateGroup, mem_def.1 hg]
    exact hg
  | join memberId subscription =>
    intro x hx
    obtain ⟨g, hg, rfl⟩ := map_eq_some_iff.1 hs
    refine (h x hx).of_group fun g' hg' => ?_
    cases hg.symm.trans hg'
    refine ⟨_, rfl, ?_⟩
    obtain ⟨member, hjoin⟩ : ∃ member, g.join memberId subscription = g.addMember memberId member := by
      rw [ConsumerGroup.join]
      split <;> exact ⟨_, rfl⟩
    rw [hjoin]
    refine ⟨rfl, fun id hid => ?_⟩
    rw [ConsumerGroup.addMember]
    by_cases heq : id = memberId
    case pos => rw [heq, OrderedMap.get?_upsert_self, isSome_some]
    case neg => rwa [OrderedMap.get?_upsert_of_ne heq]
  | completeJoin =>
    intro x hx
    obtain ⟨g, hg, hs⟩ := bind_eq_some_iff.1 hs
    obtain ⟨-, rfl⟩ := of_guard hs
    refine (h x hx).of_group fun g' hg' => ?_
    cases hg.symm.trans hg'
    exact ⟨_, rfl, rfl, fun _ => id⟩
  | sync memberId generationId memberEpoch submitted input ok =>
    obtain ⟨g, hg, hs⟩ := bind_eq_some_iff.1 hs
    obtain ⟨-, rfl⟩ := of_guard hs
    intro x hx
    refine HasMember.sync ?_ hg
    rw [syncedAfter] at hx
    split at hx
    case isTrue hsynced =>
      rcases List.mem_cons.1 hx with rfl | hx
      · obtain ⟨g', hg', hmember, hroute⟩ := hsynced
        refine ⟨g', hg', hmember, ?_⟩
        by_contra hgen
        exact hroute (by rw [ConsumerGroup.syncRoute, if_pos hgen])
      · exact h x hx
    case isFalse => exact h x hx
  | fallback input =>
    intro x hx
    obtain ⟨g, hg, hs⟩ := bind_eq_some_iff.1 hs
    obtain ⟨-, hs⟩ := ite_none_right_eq_some.1 hs
    have htimer : HasMember { s.manager with timers := s.manager.timers - 1 } x := h x hx
    split at hs
    case isTrue =>
      cases hs
      exact htimer.distribute hg
    case isFalse =>
      cases hs
      exact htimer
  | markEmpty ok =>
    intro x hx
    obtain ⟨-, rfl⟩ := of_guard hs
    have hstored : HasMember { s.manager with emptied := s.manager.emptied - 1 } x := h x hx
    exact hstored.store
  | leave | expire | rebalanceForNewMember => exact fun _ hx => absurd hx List.not_mem_nil

theorem lastAccepted_append {accepted : List AcceptedCommit} : lastAccepted (accepted ++ [c]) =
      Function.update (lastAccepted accepted) c.offset.key (some c.offset) := by
  funext key
  by_cases hkey : key = c.offset.key
  · subst hkey
    simp [lastAccepted]
  · rw [Function.update_of_ne hkey]
    simp [lastAccepted, Ne.symm hkey]

/-- The stored offsets are those that were accepted last, each was of a member, and who has synced is
a member. -/
structure Inv (s : OffsetCommits) : Prop where
  stored : s.metadata.consumerOffsets = lastAccepted s.accepted
  fenced : s.Fenced
  synced : ∀ x ∈ s.synced, HasMember s.manager x

namespace Inv

variable (h : s.Inv)
include h

theorem accept (hcurrent : Current s.manager.group memberId generationId)
    (offset : ConsumerOffset) : (s.accept memberId generationId offset).Inv where
  stored := by
    rw [OffsetCommits.accept, lastAccepted_append, ← h.stored]
    rfl
  fenced := by
    intro c hc
    rcases List.mem_concat.1 hc with hc | rfl
    · exact h.fenced c hc
    · exact hcurrent
  synced := h.synced

theorem commitOffsets (hg : s.manager.group = some g) :
    (s.commitOffsets groupId g memberId generationId memberEpoch partitions timestamp oks).1.Inv := by
  rw [OffsetCommits.commitOffsets]
  split
  case isTrue => exact h
  case isFalse hcode =>
  have hcurrent : Current s.manager.group memberId generationId := by
    rw [hg]
    exact current_of_commitError (not_not.1 hcode)
  -- the group stays as it is while the partitions are written
  generalize partitions.zip oks = writes
  clear hg hcode
  induction writes generalizing s with
  | nil => exact h
  | cons x writes ih =>
    rw [List.foldl_cons]
    split
    · exact ih (h.accept hcurrent _) hcurrent
    · exact ih h hcurrent

theorem write (hok : s.WrittenWhileSynced (.write i timestamp ok))
    (hs : s.write groupId i timestamp ok = some s') : s'.Inv := by
  rw [OffsetCommits.write.eq_def] at hs
  split at hs
  case h_1 memberId generationId p rest errorCodes hi =>
    have hcurrent : Current s.manager.group memberId generationId :=
      fun hcarries => (h.synced _ (hok _ hi hcarries)).current hcarries
    have hset : ∀ inFlight, Inv { s with inFlight := inFlight } :=
      fun _ => ⟨h.stored, h.fenced, h.synced⟩
    cases hs
    split
    · exact (hset (s.inFlight.set i _)).accept hcurrent _
    · exact hset _
  case h_2 => cases hs

theorem step (hok : s.WrittenWhileSynced a) (hs : step groupId s a = some s') : s'.Inv := by
  cases a with
  | group action =>
    obtain ⟨manager, hmanager, rfl⟩ := map_eq_some_iff.1 hs
    exact ⟨h.stored, h.fenced, hasMember_syncedAfter h.synced hmanager⟩
  | offsetCommit memberId generationId partitions =>
    cases hs
    refine ⟨h.stored, h.fenced, fun x hx => (h.synced x hx).of_group fun g hg => ?_⟩
    refine ⟨g, ?_, rfl, fun _ => id⟩
    rw [registerGroup, mem_def.1 hg]
    rfl
  | write i timestamp ok => exact h.write hok hs
  | commitOffsets memberId generationId memberEpoch partitions timestamp oks =>
    obtain ⟨g, hg, hs⟩ := bind_eq_some_iff.1 hs
    obtain ⟨-, rfl⟩ := of_guard hs
    exact h.commitOffsets hg

end Inv

/-- If the group does not change between a member's SyncGroup and the writes of what it commits, a
commit is accepted only from a member of the group in its generation, and what is stored is what was
accepted last. -/
theorem commits_fenced (h : (machine groupId nodeId).Reaches WrittenWhileSynced s) :
    s.Fenced ∧ ∀ key, s.metadata.consumerOffsets key = lastAccepted s.accepted key := by
  have hinv : s.Inv := by
    refine h.invariant (I := Inv) ⟨rfl, ?_, ?_⟩ fun s a s' hinv hok hs => hinv.step hok hs
    · exact fun c hc => absurd hc List.not_mem_nil
    · exact fun x hx => absurd hx List.not_mem_nil
  exact ⟨hinv.fenced, fun key => congrFun hinv.stored key⟩

instance (s : OffsetCommits) : DecidablePred s.WrittenWhileSynced := fun _ => by
  unfold WrittenWhileSynced
  split <;> infer_instance

/-- The first of two members expires, and the second is given the topic in generation 1 and commits.
-/
def secondMemberTakesOver : List Action :=
  [.group (.getOrCreateGroup true), .group (.join "a" ["t"]), .group (.join "b" ["t"]),
    .group .completeJoin, .group (.sync "a" 0 0 none ⟨[("t", 1)], ["a", "b"]⟩ true),
    .group (.expire ["a"]), .group (.join "b" ["t"]), .group .completeJoin,
    .group (.sync "b" 1 0 none ⟨[("t", 1)], ["b"]⟩ true),
    .offsetCommit "b" 1 [⟨"t", 0, 100, none⟩], .write 0 0 true]

theorem commits_fenced_after_takeover :
    ∃ s, (machine "g" 1).Reaches WrittenWhileSynced s ∧
      (s.metadata.consumerOffsets ("g", "t", 0)).map (·.offset) = some 110 ∧
      (s.Fenced ∧ ∀ key, s.metadata.consumerOffsets key = lastAccepted s.accepted key) :=
  exists_reaches_and (machine "g" 1) WrittenWhileSynced
    (secondMemberTakesOver ++ [.commitOffsets "a" 0 none [⟨"t", 0, 50, none⟩] 1 [true],
      .commitOffsets "b" 1 (some 0) [⟨"t", 0, 110, none⟩] 1 [true]])
    (by decide) fun _ hreach => commits_fenced hreach

/-- The first member's commit of generation 0 arrives late, and overwrites the offset of the second one. -/
theorem expired_member_overwrites :
    ¬ ∀ groupId nodeId s, (machine groupId nodeId).Reaches Always s → s.Fenced := by
  intro h
  obtain ⟨s, hreach, -, c, hc, hstale⟩ := exists_reaches_of_run (machine "g" 1) Always
    (secondMemberTakesOver ++ [.offsetCommit "a" 0 [⟨"t", 0, 50, none⟩], .write 1 0 true])
    (fun s => (s.metadata.consumerOffsets ("g", "t", 0)).map (·.offset) = some 50 ∧
      ∃ c ∈ s.accepted, ¬ Current c.group c.memberId c.generationId) (by decide)
  exact hstale (h "g" 1 s hreach c hc)

end OffsetCommits

end ChronikStream
