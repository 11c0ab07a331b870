import ChronikStream.ConsumerGroup.Assignor
import ChronikStream.Lib.Run

/-!
# A consumer group and its manager

The states of a group of `consumer_group.rs` and the requests that move it. A request holds the lock
from its check to its end, so it is one step; JoinGroup takes the lock once for each of its phases.
Whatever waits for a timeout may happen at any moment. The assignments applied and the answers given
are ghost state.
-/

namespace ChronikStream

/-! ## The group -/

inductive GroupState where
  | empty
  | stable
  | preparingRebalance
  | completingRebalance
  | dead
  deriving DecidableEq

structure GroupMember where
  subscription : List String
  assignment : MemberAssignment
  ownedPartitions : MemberAssignment
  memberEpoch : Int
  deriving DecidableEq

def GroupMember.new (subscription : List String) : GroupMember := ⟨subscription, .empty, .empty, 0⟩

/-- A successful answer to a SyncGroup, with the generation that the request carried. -/
structure SyncResponse where
  generationId : Int
  memberId : String
  assignment : MemberAssignment
  deriving DecidableEq

/-- A group. `pendingSync` are the members whose SyncGroup waits, with the generation it carried. -/
structure ConsumerGroup where
  state : GroupState
  generationId : Int
  leaderId : Option String
  members : OrderedMap String GroupMember
  previousMemberCount : Nat
  pendingSync : OrderedMap String Int
  completedAssignments : GroupAssignment
  completedGeneration : Int
  deriving DecidableEq

/-- What the assignor reads from the metadata, and in which order it goes through the members. -/
structure AssignorInput where
  topics : List (String × Nat)
  order : List String

namespace ConsumerGroup

variable (g : ConsumerGroup)

def new : ConsumerGroup := ⟨.empty, 0, none, .empty, 0, .empty, .empty, 0⟩

def memberCount : Nat := g.members.entries.length

def addMember (memberId : String) (member : GroupMember) : ConsumerGroup :=
  { g with
    members := g.members.upsert memberId fun _ => member
    state := if g.state = .empty then .preparingRebalance else g.state }

/-- `check_rejoin_and_create_member`: a member that joins again keeps what it owns, and nothing else. -/
def join (memberId : String) (subscription : List String) : ConsumerGroup :=
  match g.members.get? memberId with
  | some existing =>
    g.addMember memberId
      { GroupMember.new subscription with ownedPartitions := existing.ownedPartitions }
  | none => g.addMember memberId (.new subscription)

/-- A new generation. Without new members what is assigned is owned from then on; otherwise both are
cleared. -/
def triggerRebalance (forceRedistribution : Bool) : ConsumerGroup :=
  if g.state = .stable ∨ g.state = .completingRebalance then
    let scaleUp := g.previousMemberCount < g.memberCount
    { g with
      state := .preparingRebalance
      generationId := (g.generationId + 1).bmod (2 ^ 32)
      previousMemberCount := g.memberCount
      members := g.members.mapValues fun _ m =>
        if ¬ forceRedistribution ∧ ¬ scaleUp then { m with ownedPartitions := m.assignment }
        else { m with assignment := .empty, ownedPartitions := .empty } }
  else g

def removeMember (memberId : String) : ConsumerGroup :=
  let removed := { g with members := g.members.erase memberId }
  if removed.members.entries = [] then
    { removed with state := .empty, generationId := 0, leaderId := none }
  else if (g.members.get? memberId).isSome then removed.triggerRebalance false
  else removed

/-- The first member leads. -/
def completeJoinPhase : ConsumerGroup :=
  { g with leaderId := g.members.entries.head?.map Prod.fst, state := .completingRebalance }

def assignmentContext (input : AssignorInput) : AssignmentContext :=
  ⟨input.topics, g.members.mapValues fun _ m => (m.subscription, m.ownedPartitions), input.order⟩

/-- The assignor goes through each topic and each member once. -/
def Reads (input : AssignorInput) : Prop :=
  (input.topics.map Prod.fst).Nodup ∧ input.order.Perm (g.members.entries.map Prod.fst)
deriving Decidable

def computeAssignments (input : AssignorInput) : GroupAssignment :=
  (g.assignmentContext input).assign

/-- The submitted assignments; of two for one member the later counts. -/
def parseAssignments (submitted : List (String × MemberAssignment)) : GroupAssignment :=
  submitted.foldl (fun A x => A.upsert x.1 fun _ => x.2) .empty

/-- What the leader submits counts if it is as many assignments as there are members. -/
def resolveAssignments (submitted : Option (List (String × MemberAssignment)))
    (input : AssignorInput) : GroupAssignment :=
  match submitted with
  | some submitted =>
    if submitted ≠ [] ∧ submitted.length = g.memberCount then parseAssignments submitted
    else g.computeAssignments input
  | none => g.computeAssignments input

def applyAssignments (A : GroupAssignment) : ConsumerGroup :=
  { g with
    completedAssignments := A
    completedGeneration := g.generationId
    members := g.members.mapValues fun memberId m =>
      { m with assignment := (A.get? memberId).getD m.assignment }
    state := .stable }

/-- The answers to the members that wait; the leader is answered directly. -/
def answers (A : GroupAssignment) (leader : Option String) : List SyncResponse :=
  g.pendingSync.entries.filterMap fun x =>
    if leader = some x.1 then none else (A.get? x.1).map fun a => ⟨x.2, x.1, a⟩

def removeAnswered (A : GroupAssignment) (leader : Option String) : ConsumerGroup :=
  { g with
    pendingSync := g.pendingSync.filterMapValues fun memberId generationId =>
      if leader ≠ some memberId ∧ (A.get? memberId).isSome then none else some generationId }

/-- `build_fallback_response`: the assignment of the member, or the recorded one if that is empty. -/
def readAssignment (memberId : String) : MemberAssignment :=
  match g.members.get? memberId with
  | some m =>
    if m.assignment.entries = [] ∧ g.completedGeneration = g.generationId then
      ((g.completedAssignments.get? memberId).filter (·.entries ≠ [])).getD m.assignment
    else m.assignment
  | none => .empty

inductive SyncRoute where
  | rejected
  | waits
  | leads
  | reads
  deriving DecidableEq

def syncRoute (memberId : String) (generationId memberEpoch : Int) : SyncRoute :=
  if g.generationId ≠ generationId then .rejected
  else if ∃ m ∈ g.members.get? memberId, m.memberEpoch ≠ memberEpoch then .rejected
  else if g.leaderId = some memberId then .leads
  else if g.state = .completingRebalance ∨ g.state = .preparingRebalance then .waits
  else .reads

end ConsumerGroup

/-! ## The manager -/

structure StoredGroup where
  state : GroupState
  generationId : Int
  leaderId : Option String
  deriving DecidableEq

/-- One group. `joining` counts new members that have not triggered a rebalance yet, `timers` the
tasks that wait for a leader, `emptied` the expiries of the group that are not stored. -/
structure GroupManager where
  group : Option ConsumerGroup
  stored : Option StoredGroup
  joining : Nat
  timers : Nat
  emptied : Nat
  assigned : List (Int × GroupAssignment)
  responses : List SyncResponse
  deriving DecidableEq

namespace GroupManager

variable (s : GroupManager) (g : ConsumerGroup)

/-- Some steps have whether the write to the metadata store succeeds. -/
inductive Action where
  | getOrCreateGroup (ok : Bool)
  | join (memberId : String) (subscription : List String)
  | rebalanceForNewMember
  | completeJoin
  | sync (memberId : String) (generationId memberEpoch : Int)
    (submitted : Option (List (String × MemberAssignment))) (input : AssignorInput) (ok : Bool)
  | fallback (input : AssignorInput)
  | leave (memberId : String) (ok : Bool)
  | expire (memberIds : List String)
  | markEmpty (ok : Bool)

def setGroup : GroupManager := { s with group := some g }

def store (group : StoredGroup) (ok : Bool) : GroupManager :=
  if ok then { s with stored := some group } else s

/-- A group that is not in memory is loaded, without members, or created. -/
def getOrCreateGroup (ok : Bool) : GroupManager :=
  match s.group, s.stored with
  | some _, _ => s
  | none, some stored =>
    s.setGroup { ConsumerGroup.new with
      state := stored.state, generationId := stored.generationId, leaderId := stored.leaderId }
  | none, none => (s.setGroup .new).store ⟨.empty, 0, none⟩ ok

/-- The group is assigned anew, and the members that wait are answered. -/
def distribute (A : GroupAssignment) (leader : Option String) : GroupManager :=
  { s with
    group := some ((g.applyAssignments A).removeAnswered A leader)
    assigned := s.assigned ++ [(g.generationId, A)]
    responses := s.responses ++ g.answers A leader }

def respond (response : SyncResponse) : GroupManager :=
  { s with responses := s.responses ++ [response] }

/-- A follower waits; when all do, a task is started. -/
def wait (memberId : String) (generationId : Int) : GroupManager :=
  let pending := g.pendingSync.upsert memberId fun _ => generationId
  let followerCount := g.memberCount - 1
  { s with
    group := some { g with pendingSync := pending }
    timers :=
      if pending.entries.length ≠ followerCount ∨ followerCount = 0 then s.timers
      else s.timers + 1 }

def sync (memberId : String) (generationId memberEpoch : Int)
    (A : GroupAssignment) (ok : Bool) : GroupManager :=
  match g.syncRoute memberId generationId memberEpoch with
  | .rejected => s
  | .waits => s.wait g memberId generationId
  | .leads =>
    if A.entries = [] then s.respond ⟨generationId, memberId, g.readAssignment memberId⟩
    else
      ((s.distribute g A (some memberId)).respond
        ⟨generationId, memberId, (A.get? memberId).getD .empty⟩).store
          ⟨.stable, g.generationId, g.leaderId⟩ ok
  | .reads => s.respond ⟨generationId, memberId, g.readAssignment memberId⟩

/-- A group without members is dropped from memory. -/
def setOrDropGroup : GroupManager :=
  { s with group := if g.members.entries = [] then none else some g }

def step : Action → Option GroupManager
  | .getOrCreateGroup ok => some (s.getOrCreateGroup ok)
  | .join memberId subscription => s.group.map fun g =>
    { s.setGroup (g.join memberId subscription) with
      joining := if (g.members.get? memberId).isSome then s.joining else s.joining + 1 }
  | .rebalanceForNewMember => s.group.bind fun g =>
    if 0 < s.joining then
      some { s.setGroup (if g.state = .stable then g.triggerRebalance true else g) with
        joining := s.joining - 1 }
    else none
  | .completeJoin => s.group.bind fun g =>
    if g.state = .preparingRebalance ∧ g.members.entries ≠ [] then some (s.setGroup g.completeJoinPhase)
    else none
  | .sync memberId generationId memberEpoch submitted input ok => s.group.bind fun g =>
    if g.Reads input then
      some (s.sync g memberId generationId memberEpoch (g.resolveAssignments submitted input) ok)
    else none
  | .fallback input => s.group.bind fun g =>
    if 0 < s.timers ∧ g.Reads input then
      let s := { s with timers := s.timers - 1 }
      if g.state = .completingRebalance ∧ g.pendingSync.entries ≠ [] then
        some (s.distribute g (g.computeAssignments input) none)
      else some s
    else none
  | .leave memberId ok => s.group.map fun g =>
    let g := g.removeMember memberId
    (s.setOrDropGroup g).store
      (if g.members.entries = [] then ⟨.empty, 0, none⟩ else ⟨g.state, g.generationId, g.leaderId⟩) ok
  | .expire memberIds => s.group.bind fun g =>
    if memberIds ≠ [] ∧ ∀ m ∈ memberIds, (g.members.get? m).isSome then
      let g := memberIds.foldl .removeMember g
      some { s.setOrDropGroup g with
        emptied := if g.members.entries = [] then s.emptied + 1 else s.emptied }
    else none
  | .markEmpty ok =>
    if 0 < s.emptied then some ({ s with emptied := s.emptied - 1 }.store ⟨.empty, 0, none⟩ ok) else none

def machine : Machine GroupManager Action where
  init := ⟨none, none, 0, 0, 0, [], []⟩
  step := step

end GroupManager

/-! ## A JoinGroup that fails -/

inductive JoinError where
  | badSubscription
  | groupNotFound
  | notAnswered
  | invalidGroupState (state : GroupState)
  deriving DecidableEq

/-- What other tasks leave to a JoinGroup between its phases: the group as the third phase finds it, if
it is still there; whether a deferred join is answered in time; and whether a stable group is found when
its answer is built. -/
structure JoinRace where
  group : Option ConsumerGroup
  answered : Bool
  found : Bool

/-- What the state decides in the fourth phase. -/
def joinOutcome (race : JoinRace) : GroupState → Except JoinError Unit
  | .preparingRebalance | .empty => if race.answered then .ok () else .error .notAnswered
  | .stable => if race.found then .ok () else .error .groupNotFound
  | state => .error (.invalidGroupState state)

namespace ConsumerGroup

variable {g : ConsumerGroup} {memberId : String}

/-- The third phase: a new member of a stable group starts a rebalance. -/
def rebalanceUnlessRejoin (g : ConsumerGroup) (isRejoin : Bool) : ConsumerGroup :=
  if g.state = .stable ∧ isRejoin = false then g.triggerRebalance true else g

/-- The outcome of `join_group` from its second phase on, with the group before and after each phase
that writes it. Metadata that cannot be parsed gives no subscription. -/
def joinGroup (g : ConsumerGroup) (memberId : String) (subscription : Option (List String))
    (race : JoinRace) : Except JoinError Unit × List (ConsumerGroup × ConsumerGroup) :=
  match subscription, race.group with
  | none, _ => (.error .badSubscription, [])
  | some topics, none => (.error .groupNotFound, [(g, g.join memberId topics)])
  | some topics, some g' =>
    let rebalanced := g'.rebalanceUnlessRejoin (g.members.get? memberId).isSome
    (joinOutcome race rebalanced.state, [(g, g.join memberId topics), (g', rebalanced)])

/-- The members, their assignments, the leader, the generation and the state are the same. -/
def Same (g g' : ConsumerGroup) : Prop :=
  (g'.members.mapValues fun _ m => m.assignment) = (g.members.mapValues fun _ m => m.assignment) ∧
    g'.leaderId = g.leaderId ∧ g'.generationId = g.generationId ∧ g'.state = g.state
deriving Decidable

/-- The member is known, and has no assignment that a new join would clear. -/
def KnownUnassigned (g : ConsumerGroup) (memberId : String) : Prop :=
  g.state ≠ .empty ∧ ∃ m ∈ g.members.get? memberId, m.assignment = .empty

/-- The state that the third phase finds leads to an answer. -/
def Answered (g : ConsumerGroup) (memberId : String) (race : JoinRace) : Prop :=
  ∃ g' ∈ race.group, match g'.state with
    | .empty | .preparingRebalance => race.answered
    | .stable => if (g.members.get? memberId).isSome then race.found else race.answered
    | .completingRebalance | .dead => False

/-- The second phase replaces the member, and only an assignment that is empty stays what it was. -/
theorem same_join (topics : List String) :
    g.Same (g.join memberId topics) ↔ g.KnownUnassigned memberId := by
  have hjoin : ∃ member : GroupMember, member.assignment = .empty ∧
      g.join memberId topics = g.addMember memberId member := by
    rw [join]
    split <;> exact ⟨_, rfl, rfl⟩
  obtain ⟨member, hempty, hjoin⟩ := hjoin
  have hstate : (g.join memberId topics).state = g.state ↔ g.state ≠ .empty := by
    rw [hjoin]
    cases h : g.state <;> simp [addMember, h]
  have hmembers : ((g.join memberId topics).members.mapValues fun _ m => m.assignment) =
      (g.members.mapValues fun _ m => m.assignment) ↔
      ∃ m ∈ g.members.get? memberId, m.assignment = .empty := by
    constructor
    · intro h
      have hget := congrArg (·.get? memberId) h
      simp only [OrderedMap.get?_mapValues, hjoin, addMember, OrderedMap.get?_upsert_self] at hget
      obtain ⟨m, hm, hassignment⟩ := Option.map_eq_some_iff.1 hget.symm
      exact ⟨m, hm, hassignment.trans hempty⟩
    · rintro ⟨m, hm, hassignment⟩
      refine OrderedMap.ext_get? fun id => ?_
      rw [OrderedMap.get?_mapValues, OrderedMap.get?_mapValues, hjoin, addMember]
      by_cases hid : id = memberId
      case pos => rw [hid, OrderedMap.get?_upsert_self, hm, Option.map_some, Option.map_some, hempty,
        hassignment]
      case neg => rw [OrderedMap.get?_upsert_of_ne hid]
  rw [Same, hstate, hmembers, KnownUnassigned, and_comm]
  simp only [hjoin, addMember, true_and]

/-- The outcome is the one that the state found by the third phase leads to. -/
theorem joinOutcome_rebalanced (hgroup : race.group = some g') :
    joinOutcome race (g'.rebalanceUnlessRejoin (g.members.get? memberId).isSome).state = .ok () ↔
      g.Answered memberId race := by
  simp only [Answered, hgroup, Option.mem_some_iff, exists_eq_left', rebalanceUnlessRejoin,
    triggerRebalance]
  cases hstate : g'.state <;> cases (g.members.get? memberId).isSome <;> simp [joinOutcome, hstate]

/-- An error of a JoinGroup leaves what its phases found if and only if the metadata cannot be parsed,
or the join leads to no error, or it is that of a known member without an assignment. -/
theorem failed_join_changes_nothing (g : ConsumerGroup) (memberId : String)
    (subscription : Option (List String)) (race : JoinRace) :
    ((g.joinGroup memberId subscription race).1 ≠ .ok () →
      ∀ x ∈ (g.joinGroup memberId subscription race).2, x.1.Same x.2) ↔
    subscription = none ∨ g.KnownUnassigned memberId ∨ g.Answered memberId race := by
  cases subscription with
  | none => simp [joinGroup]
  | some topics =>
  cases hgroup : race.group with
  | none => simp [joinGroup, hgroup, same_join, Answered]
  | some g' =>
    -- a known member starts no rebalance
    have hknown : g.KnownUnassigned memberId →
        g'.Same (g'.rebalanceUnlessRejoin (g.members.get? memberId).isSome) := by
      rintro ⟨-, m, hm, -⟩
      rw [rebalanceUnlessRejoin, if_neg (by simp [Option.mem_def.1 hm])]
      exact ⟨rfl, rfl, rfl, rfl⟩
    simp only [joinGroup, hgroup, List.forall_mem_cons, same_join, ne_eq, joinOutcome_rebalanced hgroup]
    constructor
    · intro h
      by_cases hanswered : g.Answered memberId race
      · exact .inr (.inr hanswered)
      · exact .inr (.inl (h hanswered).1)
    · rintro (h | h | h) herror
      · cases h
      · exact ⟨h, hknown h, List.forall_mem_nil _⟩
      · exact absurd h herror

end ConsumerGroup

/-- While a rebalance completes, a new member is refused, and is in the group from then on. -/
theorem refused_member_is_added :
    ¬ ∀ s, GroupManager.machine.Reaches Machine.Always s → ∀ g ∈ s.group, ∀ memberId subscription race,
      (g.joinGroup memberId subscription race).1 ≠ .ok () →
        ∀ x ∈ (g.joinGroup memberId subscription race).2, x.1.Same x.2 := by
  intro h
  obtain ⟨s, hs, g, hg, herror, x, hx, hchanged⟩ :=
    GroupManager.machine.exists_reaches_of_run Machine.Always
    [.getOrCreateGroup true, .join "a" ["t"], .completeJoin]
    (fun s => ∃ g ∈ s.group,
      (g.joinGroup "b" (some ["t"]) ⟨some (g.join "b" ["t"]), true, true⟩).1 =
        .error (.invalidGroupState .completingRebalance) ∧
      ∃ x ∈ (g.joinGroup "b" (some ["t"]) ⟨some (g.join "b" ["t"]), true, true⟩).2,
        x.1.members.entries.length ≠ x.2.members.entries.length ∧ ¬ x.1.Same x.2) (by decide +kernel)
  refine hchanged.2 (h s hs g hg "b" (some ["t"]) _ ?_ x hx)
  simp [herror]

end ChronikStream
