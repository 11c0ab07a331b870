import ChronikStream.ConsumerGroup.Membership

/-!
# One owner per partition and generation

An assignment that is applied gives each partition to one member, but nothing binds a generation to
one assignment: the leader's second SyncGroup assigns the group again (`retry_shares_partition`).
`sync_oneOwner` is for runs that assign each generation once, to members that wait in it.
-/

namespace ChronikStream

open List Machine MemberAssignment Option OrderedMap

/-! ## What the members of a group hold -/

namespace ConsumerGroup

variable {g g' : ConsumerGroup} {f : GroupMember → MemberAssignment} {id memberId : String}
  {tp : String × Int} {member : GroupMember} {assigned : List (Int × GroupAssignment)}
  {A : GroupAssignment}

/-- A member has a partition, by the field that is asked for. -/
def Holds (g : ConsumerGroup) (f : GroupMember → MemberAssignment) (memberId : String)
    (tp : String × Int) : Prop :=
  ∃ m ∈ g.members.get? memberId, (f m).Owns tp

def OneHolder (g : ConsumerGroup) (f : GroupMember → MemberAssignment) : Prop :=
  ∀ memberId memberId' tp, g.Holds f memberId tp → g.Holds f memberId' tp → memberId = memberId'

theorem OneHolder.of_imp (h : g.OneHolder f)
    (himp : ∀ memberId tp, g'.Holds f' memberId tp → g.Holds f memberId tp) : g'.OneHolder f' :=
  fun _ _ tp hm hm' => h _ _ tp (himp _ tp hm) (himp _ tp hm')

theorem not_holds_of_nil (h : g.members.entries = []) : ¬ g.Holds f memberId tp := by
  rintro ⟨m, hm, -⟩
  have hmem := get?_eq_some_iff.1 hm
  rw [h] at hmem
  cases hmem

theorem holds_of_holds_addMember (hnew : ∀ tp, (f member).Owns tp → g.Holds f id tp)
    (h : (g.addMember id member).Holds f memberId tp) : g.Holds f memberId tp := by
  obtain ⟨m, hm, hown⟩ := h
  by_cases hid : memberId = id
  · subst hid
    rw [addMember, get?_upsert_self] at hm
    cases hm
    exact hnew tp hown
  · rw [addMember, get?_upsert_of_ne hid] at hm
    exact ⟨m, hm, hown⟩

theorem assignment_of_join (h : (g.join id subscription).Holds (·.assignment) memberId tp) :
    g.Holds (·.assignment) memberId tp := by
  rw [join] at h
  split at h <;>
    exact holds_of_holds_addMember (fun _ hown => absurd hown not_owns_empty) h

theorem owned_of_join (h : (g.join id subscription).Holds (·.ownedPartitions) memberId tp) :
    g.Holds (·.ownedPartitions) memberId tp := by
  rw [join] at h
  split at h
  case h_1 existing hexisting =>
    refine holds_of_holds_addMember ?_ h
    intro tp hown
    exact ⟨existing, hexisting, hown⟩
  case h_2 =>
    exact holds_of_holds_addMember (fun _ hown => absurd hown not_owns_empty) h

theorem holds_of_holds_erase (h : Holds { g with members := g.members.erase id } f memberId tp) :
    g.Holds f memberId tp := by
  obtain ⟨m, hm, hown⟩ := h
  by_cases hid : memberId = id
  · subst hid
    rw [get?_erase_self] at hm
    cases hm
  · rw [get?_erase_of_ne hid] at hm
    exact ⟨m, hm, hown⟩

/-- After a rebalance was triggered, a member has by either field what was assigned to it, or
nothing. -/
theorem holds_of_triggerRebalance (hstate : g.state = .stable ∨ g.state = .completingRebalance)
    (hkeep : ∀ m : GroupMember, f { m with ownedPartitions := m.assignment } = m.assignment)
    (hclear : ∀ m : GroupMember, f { m with assignment := .empty, ownedPartitions := .empty } = .empty)
    (h : (g.triggerRebalance force).Holds f memberId tp) : g.Holds (·.assignment) memberId tp := by
  rw [triggerRebalance, if_pos hstate] at h
  obtain ⟨m', hm', hown⟩ := h
  rw [get?_mapValues] at hm'
  obtain ⟨m, hm, rfl⟩ := map_eq_some_iff.1 hm'
  split at hown
  · rw [hkeep] at hown
    exact ⟨m, hm, hown⟩
  · rw [hclear] at hown
    exact absurd hown not_owns_empty

theorem members_applyAssignments :
    (g.applyAssignments A).members =
      g.members.mapValues fun id m => { m with assignment := (A.get? id).getD m.assignment } := rfl

/-! ## The invariant of a group -/

/-- An assignment of a generation has given the partition to the member. -/
def Assigned (assigned : List (Int × GroupAssignment)) (generationId : Int) (memberId : String)
    (tp : String × Int) : Prop :=
  ∃ x ∈ assigned, x.1 = generationId ∧ x.2.Owns memberId tp

theorem Assigned.append {generationId : Int} (more : List (Int × GroupAssignment))
    (h : Assigned assigned generationId memberId tp) :
    Assigned (assigned ++ more) generationId memberId tp := by
  obtain ⟨x, hx, hown⟩ := h
  exact ⟨x, mem_append_left _ hx, hown⟩

/-- A SyncGroup of a follower is answered at once. -/
def Settled (g : ConsumerGroup) : Prop :=
  ¬ (g.state = .completingRebalance ∨ g.state = .preparingRebalance)

/-- The members of a settled group have what the generation has assigned to them; during a rebalance
a member may have its old partitions, and is not answered from them. -/
structure FromAssigned (assigned : List (Int × GroupAssignment)) (g : ConsumerGroup) : Prop where
  assignment : g.OneHolder (·.assignment)
  owned : g.OneHolder (·.ownedPartitions)
  current : g.Settled → ∀ memberId tp, g.Holds (·.assignment) memberId tp →
    Assigned assigned g.generationId memberId tp
  completed : ∀ memberId tp, g.completedAssignments.Owns memberId tp →
    Assigned assigned g.completedGeneration memberId tp

namespace FromAssigned

/-- A step after which the members have no more than before. -/
theorem of_imp (h : g.FromAssigned assigned)
    (hassignment : ∀ memberId tp,
      g'.Holds (·.assignment) memberId tp → g.Holds (·.assignment) memberId tp)
    (howned : ∀ memberId tp,
      g'.Holds (·.ownedPartitions) memberId tp → g.Holds (·.ownedPartitions) memberId tp)
    (hcurrent : g'.Settled → g.Settled ∧ g'.generationId = g.generationId)
    (hcompleted : g'.completedAssignments = g.completedAssignments)
    (hgeneration : g'.completedGeneration = g.completedGeneration) : g'.FromAssigned assigned where
  assignment := h.assignment.of_imp hassignment
  owned := h.owned.of_imp howned
  current hsettled memberId tp hholds := by
    obtain ⟨hsettled, hgen⟩ := hcurrent hsettled
    rw [hgen]
    exact h.current hsettled memberId tp (hassignment memberId tp hholds)
  completed memberId tp hown := by
    rw [hcompleted] at hown
    rw [hgeneration]
    exact h.completed memberId tp hown

/-- In a group without members only the record of the last assignment matters. -/
theorem of_nil (hmembers : g.members.entries = [])
    (hcompleted : ∀ memberId tp, g.completedAssignments.Owns memberId tp →
      Assigned assigned g.completedGeneration memberId tp) : g.FromAssigned assigned where
  assignment _ _ _ h := absurd h (not_holds_of_nil hmembers)
  owned _ _ _ h := absurd h (not_holds_of_nil hmembers)
  current _ _ _ h := absurd h (not_holds_of_nil hmembers)
  completed := hcompleted

section
variable (h : g.FromAssigned assigned)
include h

theorem join (id : String) (subscription : List String) :
    (g.join id subscription).FromAssigned assigned := by
  have hfields : ((g.join id subscription).Settled → g.Settled) ∧
      (g.join id subscription).generationId = g.generationId ∧
      (g.join id subscription).completedAssignments = g.completedAssignments ∧
      (g.join id subscription).completedGeneration = g.completedGeneration := by
    rw [ConsumerGroup.join]
    split <;>
    · refine ⟨fun hsettled => ?_, rfl, rfl, rfl⟩
      rw [addMember] at hsettled
      split at hsettled
      · exact absurd (.inr rfl) hsettled
      · exact hsettled
  obtain ⟨hsettled, hgen, hcompleted, hgeneration⟩ := hfields
  exact h.of_imp (fun _ _ => assignment_of_join) (fun _ _ => owned_of_join)
    (fun hs => ⟨hsettled hs, hgen⟩) hcompleted hgeneration

theorem triggerRebalance (force : Bool) : (g.triggerRebalance force).FromAssigned assigned := by
  by_cases hstate : g.state = .stable ∨ g.state = .completingRebalance
  · refine ⟨h.assignment.of_imp fun _ _ => ?_, h.assignment.of_imp fun _ _ => ?_, ?_, ?_⟩
    · exact holds_of_triggerRebalance hstate (fun _ => rfl) fun _ => rfl
    · exact holds_of_triggerRebalance hstate (fun _ => rfl) fun _ => rfl
    · rw [ConsumerGroup.triggerRebalance, if_pos hstate]
      exact fun hsettled => absurd (.inr rfl) hsettled
    · rw [ConsumerGroup.triggerRebalance, if_pos hstate]
      exact h.completed
  · rw [ConsumerGroup.triggerRebalance, if_neg hstate]
    exact h

theorem removeMember (id : String) : (g.removeMember id).FromAssigned assigned := by
  have hremoved : FromAssigned assigned { g with members := g.members.erase id } :=
    h.of_imp (fun _ _ => holds_of_holds_erase) (fun _ _ => holds_of_holds_erase)
      (fun hsettled => ⟨hsettled, rfl⟩) rfl rfl
  rw [ConsumerGroup.removeMember]
  split
  case isTrue hnil => exact of_nil hnil h.completed
  case isFalse =>
  split
  · exact hremoved.triggerRebalance false
  · exact hremoved

theorem foldl_removeMember (ids : List String) :
    (ids.foldl .removeMember g).FromAssigned assigned := by
  induction ids generalizing g with
  | nil => exact h
  | cons id ids ih => exact ih (h.removeMember id)

theorem completeJoinPhase : g.completeJoinPhase.FromAssigned assigned :=
  ⟨h.assignment, h.owned, fun hsettled => absurd (.inl rfl) hsettled, h.completed⟩

theorem pendingSync (pending : OrderedMap String Int) :
    FromAssigned assigned { g with pendingSync := pending } :=
  ⟨h.assignment, h.owned, h.current, h.completed⟩

theorem applyAssignments (hdisjoint : A.Disjoint)
    (hcovers : ∀ x ∈ g.members.entries, (A.get? x.1).isSome) :
    (g.applyAssignments A).FromAssigned (assigned ++ [(g.generationId, A)]) := by
  have hnew : ∀ {memberId tp}, A.Owns memberId tp →
      Assigned (assigned ++ [(g.generationId, A)]) g.generationId memberId tp :=
    fun hown => ⟨_, mem_concat_self, rfl, hown⟩
  have hgiven : ∀ {memberId tp}, (g.applyAssignments A).Holds (·.assignment) memberId tp →
      A.Owns memberId tp := by
    intro memberId tp hholds
    obtain ⟨m', hm', hown⟩ := hholds
    rw [members_applyAssignments, get?_mapValues] at hm'
    obtain ⟨m, hm, rfl⟩ := map_eq_some_iff.1 hm'
    obtain ⟨a, ha⟩ := isSome_iff_exists.1 (hcovers _ (get?_eq_some_iff.1 hm))
    rw [ha] at hown
    exact ⟨a, ha, hown⟩
  have howned : ∀ {memberId tp}, (g.applyAssignments A).Holds (·.ownedPartitions) memberId tp →
      g.Holds (·.ownedPartitions) memberId tp := by
    rintro memberId tp ⟨m', hm', hown⟩
    rw [members_applyAssignments, get?_mapValues] at hm'
    obtain ⟨m, hm, rfl⟩ := map_eq_some_iff.1 hm'
    exact ⟨m, hm, hown⟩
  exact
    { assignment := fun _ _ tp hm hm' => hdisjoint _ _ tp (hgiven hm) (hgiven hm')
      owned := h.owned.of_imp fun _ _ => howned
      current := fun _ _ _ hm => hnew (hgiven hm)
      completed := fun _ _ hown => hnew hown }

theorem computeAssignments_disjoint (hreads : g.Reads input) : (g.computeAssignments input).Disjoint := by
  refine AssignmentContext.assign_disjoint ?_ hreads.1
  intro memberId memberId' tp x hx x' hx' hown hown'
  rw [assignmentContext, get?_mapValues] at hx hx'
  obtain ⟨m, hm, rfl⟩ := map_eq_some_iff.1 hx
  obtain ⟨m', hm', rfl⟩ := map_eq_some_iff.1 hx'
  exact h.owned memberId memberId' tp ⟨m, hm, hown⟩ ⟨m', hm', hown'⟩

theorem assigned_of_readAssignment (hsettled : g.Settled)
    (hown : (g.readAssignment memberId).Owns tp) : Assigned assigned g.generationId memberId tp := by
  rw [readAssignment] at hown
  split at hown
  case h_1 m hm =>
    have hmember : m.assignment.Owns tp → Assigned assigned g.generationId memberId tp :=
      fun hown => h.current hsettled memberId tp ⟨m, hm, hown⟩
    split at hown
    case isTrue hrecorded =>
      rw [← hrecorded.2]
      cases hfilter : (g.completedAssignments.get? memberId).filter (·.entries ≠ []) with
      | none =>
        rw [hfilter] at hown
        rw [hrecorded.2]
        exact hmember hown
      | some recorded =>
        rw [hfilter] at hown
        exact h.completed memberId tp ⟨recorded, (filter_eq_some_iff.1 hfilter).1, hown⟩
    case isFalse => exact hmember hown
  case h_2 => exact absurd hown not_owns_empty

end

end FromAssigned

/-- The submitted assignments, if they are as many as there are members. -/
def counting (g : ConsumerGroup) (submitted : Option (List (String × MemberAssignment))) :
    Option (List (String × MemberAssignment)) :=
  submitted.filter fun assignments => assignments ≠ [] ∧ assignments.length = g.memberCount

theorem resolveAssignments_eq : g.resolveAssignments submitted input =
    ((g.counting submitted).map parseAssignments).getD (g.computeAssignments input) := by
  cases submitted with
  | none => rfl
  | some assignments =>
    rw [resolveAssignments, counting, Option.filter_some]
    by_cases h : assignments ≠ [] ∧ assignments.length = g.memberCount
    · simp [h]
    · rw [if_neg h, if_neg (by simpa using h)]
      rfl

/-- A member that an assignment was submitted for has one in what is parsed. -/
theorem isSome_parseAssignments (h : memberId ∈ assignments.map Prod.fst) :
    ((parseAssignments assignments).get? memberId).isSome := by
  have hfold : ∀ A : GroupAssignment, memberId ∈ assignments.map Prod.fst ∨ (A.get? memberId).isSome →
      ((assignments.foldl (fun A x => A.upsert x.1 fun _ => x.2) A).get? memberId).isSome := by
    clear h
    induction assignments with
    | nil => exact fun A h => h.resolve_left not_mem_nil
    | cons x assignments ih =>
      intro A h
      refine ih _ ?_
      by_cases hid : memberId = x.1
      case pos => exact .inr (by rw [hid, get?_upsert_self, isSome_some])
      case neg =>
        rw [get?_upsert_of_ne hid]
        exact h.imp_left fun h => (mem_cons.1 h).resolve_left hid
  exact hfold _ (.inl h)

theorem isSome_computeAssignments (h : (memberId, m) ∈ g.members.entries) :
    ((g.computeAssignments input).get? memberId).isSome := by
  refine AssignmentContext.isSome_assign ?_
  rw [assignmentContext, get?_mapValues, get?_eq_some_iff.2 h]
  rfl

/-- An assignment has an entry for each member, if the submitted one that counts has. -/
theorem isSome_resolveAssignments (hm : (memberId, m) ∈ g.members.entries)
    (hsubmitted : ∀ assignments ∈ g.counting submitted, memberId ∈ assignments.map Prod.fst) :
    ((g.resolveAssignments submitted input).get? memberId).isSome := by
  rw [resolveAssignments_eq]
  cases hcounting : g.counting submitted with
  | none => exact isSome_computeAssignments hm
  | some assignments => exact isSome_parseAssignments (hsubmitted assignments hcounting)

/-- Without an assignment there are no members. -/
theorem get?_members_of_resolveAssignments
    (h : (g.resolveAssignments submitted input).entries = []) : g.members.get? memberId = none := by
  have hnone : ∀ id, ¬ ((g.resolveAssignments submitted input).get? id).isSome := by
    intro id hsome
    obtain ⟨a, ha⟩ := isSome_iff_exists.1 hsome
    have hmem := get?_eq_some_iff.1 ha
    rw [h] at hmem
    cases hmem
  rw [resolveAssignments_eq] at hnone
  cases hcounting : g.counting submitted with
  | none =>
    rw [hcounting] at hnone
    by_contra hsome
    obtain ⟨m, hm⟩ := ne_none_iff_exists'.1 hsome
    exact hnone memberId (isSome_computeAssignments (get?_eq_some_iff.1 hm))
  | some assignments =>
    rw [hcounting] at hnone
    have hne : assignments ≠ [] := by
      have := (filter_eq_some_iff.1 hcounting).2
      exact (of_decide_eq_true this).1
    obtain ⟨x, hx⟩ := exists_mem_of_ne_nil _ hne
    exact absurd (isSome_parseAssignments (mem_map_of_mem hx)) (hnone x.1)

theorem FromAssigned.resolveAssignments_disjoint (h : g.FromAssigned assigned)
    (hreads : g.Reads input)
    (hclient : ∀ assignments ∈ submitted, (parseAssignments assignments).Disjoint) :
    (g.resolveAssignments submitted input).Disjoint := by
  rw [resolveAssignments_eq]
  cases hcounting : g.counting submitted with
  | none => exact h.computeAssignments_disjoint hreads
  | some assignments => exact hclient assignments (filter_eq_some_iff.1 hcounting).1

theorem settled_of_syncRoute {generationId memberEpoch : Int}
    (h : g.syncRoute memberId generationId memberEpoch = .reads) :
    g.Settled ∧ g.generationId = generationId := by
  rw [syncRoute] at h
  split at h
  · cases h
  rename_i hgen
  split at h
  · cases h
  split at h
  · cases h
  split at h
  · cases h
  · rename_i hsettled
    exact ⟨hsettled, not_not.1 hgen⟩

theorem generationId_of_syncRoute {generationId memberEpoch : Int}
    (h : g.syncRoute memberId generationId memberEpoch = .leads) : g.generationId = generationId := by
  rw [syncRoute] at h
  split at h
  · cases h
  · exact not_not.1 ‹_›

end ConsumerGroup

/-! ## The answers of a run -/

namespace GroupManager

open ConsumerGroup (Assigned FromAssigned)

variable {s s' : GroupManager} {g : ConsumerGroup} {A : GroupAssignment} {leader : Option String}
  {memberId : String} {generationId memberEpoch : Int}

/-- No partition is answered to two members in one generation. -/
def OneOwner (s : GroupManager) : Prop :=
  ∀ r ∈ s.responses, ∀ r' ∈ s.responses, r.generationId = r'.generationId → r.memberId ≠ r'.memberId →
    ∀ tp, ¬ (r.assignment.Owns tp ∧ r'.assignment.Owns tp)

/-- An assignment that a leader submits gives each partition to one member. -/
def ClientsDisjoint (s : GroupManager) : Action → Prop
  | .sync memberId generationId memberEpoch submitted _ _ =>
    ∀ g ∈ s.group, g.syncRoute memberId generationId memberEpoch = .leads →
      ∀ assignments ∈ submitted, (ConsumerGroup.parseAssignments assignments).Disjoint
  | _ => True

/-- The group may be assigned: nobody waits since another generation, the submitted assignment, if it
counts, has an entry for each member, and the generation was not assigned before, or with that. -/
def MayAssign (s : GroupManager) (g : ConsumerGroup)
    (submitted : Option (List (String × MemberAssignment))) : Prop :=
  (∀ x ∈ g.pendingSync.entries, x.2 = g.generationId) ∧
  (∀ assignments ∈ g.counting submitted, ∀ m ∈ g.members.entries, m.1 ∈ assignments.map Prod.fst) ∧
  ∀ y ∈ s.assigned, y.1 = g.generationId →
    ∃ assignments ∈ g.counting submitted, y.2 = ConsumerGroup.parseAssignments assignments
deriving Decidable

/-- A leader's SyncGroup and the fallback come when the group may be assigned. -/
def AssignsOnce (s : GroupManager) : Action → Prop
  | .sync memberId generationId memberEpoch submitted _ _ => ∀ g ∈ s.group,
    g.syncRoute memberId generationId memberEpoch = .leads → s.MayAssign g submitted
  | .fallback _ => ∀ g ∈ s.group,
    g.state = .completingRebalance ∧ g.pendingSync.entries ≠ [] → s.MayAssign g none
  | _ => True

/-- The assignments of a generation are compatible, and every answer is by one of them. -/
structure Consistent (s : GroupManager) : Prop where
  assigned : ∀ x ∈ s.assigned, ∀ y ∈ s.assigned, x.1 = y.1 → x.2.Compatible y.2
  answered : ∀ r ∈ s.responses, ∀ tp, r.assignment.Owns tp →
    Assigned s.assigned r.generationId r.memberId tp
  group : ∀ g ∈ s.group, g.FromAssigned s.assigned

namespace Consistent

section
variable (h : s.Consistent)
include h

theorem oneOwner : s.OneOwner := by
  rintro r hr r' hr' hgen hne tp ⟨hown, hown'⟩
  obtain ⟨x, hx, hxgen, hxown⟩ := h.answered r hr tp hown
  obtain ⟨y, hy, hygen, hyown⟩ := h.answered r' hr' tp hown'
  have hxy : x.1 = y.1 := by rw [hxgen, hygen, hgen]
  exact hne (h.assigned x hx y hy hxy _ _ tp hxown hyown)

/-- A step that changes the group, and neither assigns nor answers. -/
theorem of_group (hassigned : s'.assigned = s.assigned)
    (hresponses : s'.responses = s.responses) (hgroup : ∀ g ∈ s'.group, g.FromAssigned s.assigned) :
    s'.Consistent := by
  refine ⟨?_, ?_, ?_⟩
  · rw [hassigned]
    exact h.assigned
  · rw [hresponses, hassigned]
    exact h.answered
  · rw [hassigned]
    exact hgroup

theorem setGroup (hg : g.FromAssigned s.assigned) : (s.setGroup g).Consistent :=
  h.of_group rfl rfl fun _ hg' => by
    cases hg'
    exact hg

theorem setOrDropGroup (hg : g.FromAssigned s.assigned) : (s.setOrDropGroup g).Consistent := by
  refine h.of_group rfl rfl fun g' hg' => ?_
  obtain ⟨-, rfl⟩ := of_not_guard hg'
  exact hg

theorem store (group : StoredGroup) (ok : Bool) : (s.store group ok).Consistent := by
  cases ok with
  | false => exact h
  | true => exact { h with }

theorem getOrCreateGroup (ok : Bool) : (s.getOrCreateGroup ok).Consistent := by
  have hrecord : ∀ memberId tp generationId,
      GroupAssignment.Owns .empty memberId tp → Assigned s.assigned generationId memberId tp := by
    rintro memberId tp generationId ⟨a, ha, -⟩
    cases ha
  rw [GroupManager.getOrCreateGroup]
  split
  · exact h
  · exact h.setGroup (.of_nil rfl fun memberId tp => hrecord memberId tp _)
  · exact (h.setGroup (.of_nil rfl fun memberId tp => hrecord memberId tp _)).store _ ok

theorem respond (hresponse : ∀ tp, response.assignment.Owns tp →
      Assigned s.assigned response.generationId response.memberId tp) :
    (s.respond response).Consistent :=
  ⟨h.assigned, forall_mem_concat.2 ⟨h.answered, hresponse⟩, h.group⟩

theorem distribute (leader : Option String) (hg : g ∈ s.group) (hmay : s.MayAssign g submitted)
    (hdisjoint : (g.resolveAssignments submitted input).Disjoint) :
    (s.distribute g (g.resolveAssignments submitted input) leader).Consistent where
  assigned := by
    have hsame : ∀ y ∈ s.assigned, y.1 = g.generationId →
        y.2 = g.resolveAssignments submitted input := by
      intro y hy hgen
      obtain ⟨assignments, hcounting, hparsed⟩ := hmay.2.2 y hy hgen
      rw [ConsumerGroup.resolveAssignments_eq, Option.mem_def.1 hcounting]
      exact hparsed
    intro x hx y hy hxy
    rcases mem_concat.1 hx with hx | rfl
    · rcases mem_concat.1 hy with hy | rfl
      · exact h.assigned x hx y hy hxy
      · rw [hsame x hx hxy]
        exact hdisjoint
    · rcases mem_concat.1 hy with hy | rfl
      · rw [hsame y hy hxy.symm]
        exact hdisjoint
      · exact hdisjoint
  answered := by
    intro r hr tp hown
    rcases mem_append.1 hr with hr | hr
    · exact (h.answered r hr tp hown).append _
    obtain ⟨x, hpending, hx⟩ := mem_filterMap.1 hr
    obtain ⟨-, hx⟩ := ite_none_left_eq_some.1 hx
    obtain ⟨a, ha, rfl⟩ := map_eq_some_iff.1 hx
    exact ⟨_, mem_concat_self, (hmay.1 x hpending).symm, a, ha, hown⟩
  group := by
    intro g' hg'
    cases hg'
    refine ((h.group g hg).applyAssignments hdisjoint fun m hm => ?_).pendingSync _
    exact ConsumerGroup.isSome_resolveAssignments hm fun assignments hcounting =>
      hmay.2.1 assignments hcounting m hm

theorem sync (hg : g ∈ s.group) (hreads : g.Reads input)
    (hclient : s.ClientsDisjoint (.sync memberId generationId memberEpoch submitted input ok))
    (hmay : s.AssignsOnce (.sync memberId generationId memberEpoch submitted input ok)) :
    Consistent
      (s.sync g memberId generationId memberEpoch (g.resolveAssignments submitted input) ok) := by
  rw [GroupManager.sync]
  split
  case h_1 => exact h
  case h_2 =>
    refine h.of_group rfl rfl fun g' hg' => ?_
    cases hg'
    exact (h.group g hg).pendingSync _
  case h_3 hroute =>
    have hgen := ConsumerGroup.generationId_of_syncRoute hroute
    split
    case isTrue hnil =>
      -- without members there is nothing to read
      refine h.respond fun tp hown => ?_
      rw [ConsumerGroup.readAssignment, ConsumerGroup.get?_members_of_resolveAssignments hnil] at hown
      exact absurd hown not_owns_empty
    case isFalse =>
    have hdisjoint := (h.group g hg).resolveAssignments_disjoint hreads (hclient g hg hroute)
    have hdistributed := h.distribute (some memberId) hg (hmay g hg hroute) hdisjoint
    refine (hdistributed.respond fun tp hown => ?_).store _ ok
    refine ⟨_, mem_concat_self, hgen, ?_⟩
    cases hget : (g.resolveAssignments submitted input).get? memberId with rw [hget] at hown
    | none =>
      exact absurd hown not_owns_empty
    | some a =>
      exact ⟨a, hget, hown⟩
  case h_4 hroute =>
    obtain ⟨hsettled, hgen⟩ := ConsumerGroup.settled_of_syncRoute hroute
    refine h.respond fun tp hown => ?_
    rw [← hgen]
    exact (h.group g hg).assigned_of_readAssignment hsettled hown

theorem step (hok : s.ClientsDisjoint a ∧ s.AssignsOnce a)
    (hs : s.step a = some s') : s'.Consistent := by
  cases a with
  | getOrCreateGroup ok =>
    cases hs
    exact h.getOrCreateGroup ok
  | join memberId subscription =>
    obtain ⟨g, hg, rfl⟩ := map_eq_some_iff.1 hs
    exact { h.setGroup ((h.group g hg).join memberId subscription) with }
  | rebalanceForNewMember =>
    obtain ⟨g, hg, hs⟩ := bind_eq_some_iff.1 hs
    obtain ⟨-, rfl⟩ := of_guard hs
    refine h.of_group rfl rfl fun g' hg' => ?_
    cases hg'
    split
    · exact (h.group g hg).triggerRebalance true
    · exact h.group g hg
  | completeJoin =>
    obtain ⟨g, hg, hs⟩ := bind_eq_some_iff.1 hs
    obtain ⟨-, rfl⟩ := of_guard hs
    exact h.setGroup (h.group g hg).completeJoinPhase
  | sync memberId generationId memberEpoch submitted input ok =>
    obtain ⟨g, hg, hs⟩ := bind_eq_some_iff.1 hs
    obtain ⟨hreads, rfl⟩ := of_guard hs
    exact h.sync hg hreads hok.1 hok.2
  | fallback input =>
    obtain ⟨g, hg, hs⟩ := bind_eq_some_iff.1 hs
    obtain ⟨⟨-, hreads⟩, hs⟩ := ite_none_right_eq_some.1 hs
    split at hs
    case isTrue hwait =>
      cases hs
      have hmay : s.MayAssign g none := hok.2 g hg hwait
      have hdisjoint := (h.group g hg).computeAssignments_disjoint hreads
      exact { h.distribute none hg hmay hdisjoint with }
    case isFalse =>
      cases hs
      exact { h with }
  | leave memberId ok =>
    obtain ⟨g, hg, rfl⟩ := map_eq_some_iff.1 hs
    exact (h.setOrDropGroup ((h.group g hg).removeMember memberId)).store _ ok
  | expire memberIds =>
    obtain ⟨g, hg, hs⟩ := bind_eq_some_iff.1 hs
    obtain ⟨-, rfl⟩ := of_guard hs
    exact { h.setOrDropGroup ((h.group g hg).foldl_removeMember memberIds) with }
  | markEmpty ok =>
    obtain ⟨-, rfl⟩ := of_guard hs
    have h' : Consistent { s with emptied := s.emptied - 1 } := { h with }
    exact h'.store _ ok

end

end Consistent

/-- In a run that assigns each generation once, two members are never answered with the same partition
in one generation. -/
theorem sync_oneOwner (h : machine.Reaches (fun s a => s.ClientsDisjoint a ∧ s.AssignsOnce a) s) :
    s.OneOwner := by
  refine Consistent.oneOwner
    (h.invariant (I := Consistent) ?_ fun s a s' hinv hok hs => hinv.step hok hs)
  exact
    { assigned := by
        intro x hx
        cases hx
      answered := by
        intro r hr
        cases hr
      group := by
        intro g hg
        cases hg }

instance (s : GroupManager) : DecidablePred s.ClientsDisjoint := fun _ => by
  unfold ClientsDisjoint
  split <;> infer_instance

instance (s : GroupManager) : DecidablePred s.AssignsOnce := fun _ => by
  unfold AssignsOnce
  split <;> infer_instance

/-- Two members of a group join, and the follower waits for the leader. -/
def twoMembersWait : List Action :=
  [.getOrCreateGroup true, .join "a" ["t"], .join "b" ["t"], .completeJoin,
    .sync "b" 0 0 none ⟨[("t", 2)], ["a", "b"]⟩ true]

/-- The leader's SyncGroup carries no assignments, so the assignor computes them. -/
def leaderSyncs (order : List String) : Action := .sync "a" 0 0 none ⟨[("t", 2)], order⟩ true

/-- A third member joins the stable group; in the next generation the leader submits an assignment,
and sends it again. -/
theorem sync_oneOwner_third_member :
    ∃ s, machine.Reaches (fun s a => s.ClientsDisjoint a ∧ s.AssignsOnce a) s ∧
      s.responses.map (fun r => (r.generationId, r.memberId, r.assignment.entries)) =
        [(0, "b", [("t", [1])]), (0, "a", [("t", [0])]), (1, "a", [("t", [0])]), (1, "a", [("t", [0])]),
          (1, "c", [("t", [1])])] ∧ s.OneOwner :=
  exists_reaches_and machine (fun s a => s.ClientsDisjoint a ∧ s.AssignsOnce a)
    (twoMembersWait ++ [leaderSyncs ["a", "b"], .join "c" ["t"], .rebalanceForNewMember, .completeJoin] ++
      List.replicate 2 (.sync "a" 1 0 (some [("a", .upsert .empty "t" fun _ => [0]), ("b", .empty),
        ("c", .upsert .empty "t" fun _ => [1])]) ⟨[("t", 2)], ["a", "b", "c"]⟩ true) ++
      [.sync "c" 1 0 none ⟨[("t", 2)], ["a", "b", "c"]⟩ true])
    (by decide +kernel) fun _ hreach => sync_oneOwner hreach

/-- The leader sends its SyncGroup again, the assignor meets the members in another order, and the
leader gets the follower's partition. -/
theorem retry_shares_partition : ¬ ∀ s, machine.Reaches ClientsDisjoint s → s.OneOwner := by
  intro h
  obtain ⟨s, hreach, r, hr, r', hr', hgen, hne, hshared⟩ := exists_reaches_of_run machine ClientsDisjoint
    (twoMembersWait ++ [leaderSyncs ["a", "b"], leaderSyncs ["b", "a"]])
    (fun s => ∃ r ∈ s.responses, ∃ r' ∈ s.responses, r.generationId = r'.generationId ∧
      r.memberId ≠ r'.memberId ∧ r.assignment.Owns ("t", 1) ∧ r'.assignment.Owns ("t", 1)) (by decide)
  exact h s hreach r hr r' hr' hgen hne ("t", 1) hshared

end GroupManager

end ChronikStream
