import ChronikStream.Raft.WalStorage

/-!
# The Raft message loop

An iteration of `start_message_loop` is modelled by the trace of its effects, over any `Ready`s and
`LightReady`s of raft-rs. The loop drops the committed entries of a `LightReady` and of a `Ready`
with a snapshot (`dropped`); a run loses nothing exactly if no iteration does (`applied_once_iff`).
-/

namespace ChronikStream.Raft

open List Function

/-! ## The metadata state machine -/

structure BrokerInfo where
  brokerId : Int32
  host : String
  port : Int32
  rack : Option String
  status : String
  deriving DecidableEq

inductive MetadataCommand where
  | addNode (nodeId : UInt64) (address : String)
  | removeNode (nodeId : UInt64)
  | registerBroker (brokerId : Int32) (host : String) (port : Int32) (rack : Option String)
  | updateBrokerStatus (brokerId : Int32) (status : String)
  | removeBroker (brokerId : Int32)
  deriving DecidableEq

/-- The nodes by id with their addresses, and the brokers by id. -/
structure MetadataStateMachine where
  nodes : UInt64 → Option String
  brokers : Int32 → Option BrokerInfo

namespace MetadataStateMachine

/-- `apply`, which fails for no command. -/
def apply (sm : MetadataStateMachine) : MetadataCommand → MetadataStateMachine
  | .addNode nodeId address => { sm with nodes := update sm.nodes nodeId (some address) }
  | .removeNode nodeId => { sm with nodes := update sm.nodes nodeId none }
  | .registerBroker brokerId host port rack =>
    { sm with
      brokers := update sm.brokers brokerId (some ⟨brokerId, host, port, rack, "online"⟩) }
  | .updateBrokerStatus brokerId status =>
    let broker := (sm.brokers brokerId).map fun broker => { broker with status := status }
    { sm with brokers := update sm.brokers brokerId broker }
  | .removeBroker brokerId => { sm with brokers := update sm.brokers brokerId none }

end MetadataStateMachine

inductive EntryType where
  | normal
  | confChange
  | confChangeV2
  deriving DecidableEq

/-- `get_entry_type`: an unknown number is a normal entry. -/
def Entry.getEntryType (e : Entry) : EntryType :=
  if e.entryType = 1 then .confChange else if e.entryType = 2 then .confChangeV2 else .normal

section
variable (deserialize : List UInt8 → Option MetadataCommand)

def applyEntry (sm : MetadataStateMachine) (e : Entry) : Option MetadataStateMachine :=
  if e.data = [] then some sm
  else
    match e.getEntryType with
    | .normal => (deserialize e.data).map sm.apply
    | .confChange | .confChangeV2 => some sm

/-- `apply_committed_entries` works on a copy: an entry that cannot be read drops all of them. -/
def applyCommittedEntries (sm : MetadataStateMachine) (entries : List Entry) :
    Option MetadataStateMachine :=
  entries.foldlM (applyEntry deserialize) sm

def commands (entries : List Entry) : List MetadataCommand :=
  entries.filterMap fun e =>
    if e.data ≠ [] ∧ e.getEntryType = .normal then deserialize e.data else none

end

/-! ## One iteration -/

structure Snapshot where
  metadata : SnapshotMetadata
  data : List UInt8

def Snapshot.isEmpty (s : Snapshot) : Prop := s.metadata.index = 0
deriving Decidable

/-- What raft-rs asks for; `messages` may be sent at once, `persistedMessages` after the writes. -/
structure Ready (μ : Type) where
  messages : List μ
  snapshot : Snapshot
  committedEntries : List Entry
  entries : List Entry
  hs : Option HardState
  persistedMessages : List μ

structure LightReady (μ : Type) where
  committedEntries : List Entry
  messages : List μ

/-- The effects of the loop, in order. The writes are there with their results. -/
inductive Effect (μ : Type) where
  | ready (rd : Ready μ)
  | send (m : μ)
  | saveSnapshot (snapshot : Snapshot) (ok : Bool)
  | restore (sm : MetadataStateMachine)
  | truncateLogToSnapshot (index : Nat)
  | applyConfChange (e : Entry)
  | appendEntries (entries : List Entry) (ok : Bool)
  | persistHardState (hs : HardState) (ok : Bool)
  | advance (light : LightReady μ)
  | apply (entries : List Entry)

/-- What an iteration meets: the `Ready`, what `advance` returns, and which writes and changes
succeed. -/
structure Iteration (μ : Type) where
  ready : Option (Ready μ)
  light : LightReady μ
  saved : Bool
  appended : Bool
  persisted : Bool
  deserialized : Option MetadataStateMachine
  applicable : Entry → Bool

namespace Iteration

variable {μ : Type} (it : Iteration μ)

/-- The snapshot is saved, takes the place of the state machine, and cuts the log; the first failure
ends this. -/
def applySnapshot (snapshot : Snapshot) : List (Effect μ) :=
  if it.saved = false then [.saveSnapshot snapshot false]
  else if snapshot.data = [] then
    [.saveSnapshot snapshot true, .truncateLogToSnapshot snapshot.metadata.index]
  else
    match it.deserialized with
    | none => [.saveSnapshot snapshot true]
    | some sm =>
      [.saveSnapshot snapshot true, .restore sm, .truncateLogToSnapshot snapshot.metadata.index]

def applyConfChanges (rd : Ready μ) : List (Effect μ) :=
  (rd.committedEntries.filter fun e => e.getEntryType = .confChangeV2 ∧ it.applicable e).map
    .applyConfChange

/-- The two writes; a failed one is logged. -/
def persist (rd : Ready μ) : List (Effect μ) :=
  (if rd.entries = [] then [] else [.appendEntries rd.entries it.appended]) ++
    (rd.hs.toList.map fun hs => .persistHardState hs it.persisted)

/-- The committed entries that are no configuration change of the second kind, if there are any. -/
def applyEntries (rd : Ready μ) : List (Effect μ) :=
  let normalEntries := rd.committedEntries.filter fun e => e.getEntryType ≠ .confChangeV2
  if normalEntries = [] then [] else [.apply normalEntries]

/-- With a snapshot the iteration ends behind it; `advance` is not called. -/
def processReady (rd : Ready μ) : List (Effect μ) :=
  .ready rd :: (rd.messages.map .send ++
    if ¬ rd.snapshot.isEmpty then it.applySnapshot rd.snapshot
    else
      it.applyConfChanges rd ++ it.persist rd ++ rd.persistedMessages.map .send ++
        .advance it.light :: applyEntries rd)

def effects : List (Effect μ) := it.ready.elim [] it.processReady

end Iteration

def messageLoop {μ : Type} (its : List (Iteration μ)) : List (Effect μ) := its.flatMap (·.effects)

/-! ## What a trace says -/

section
variable {μ : Type}

def handedOut (trace : List (Effect μ)) : List Entry :=
  trace.flatMap fun
    | .ready rd => rd.committedEntries
    | .advance light => light.committedEntries
    | _ => []

def given (trace : List (Effect μ)) : List Entry :=
  trace.flatMap fun
    | .apply entries => entries
    | _ => []

def normal (entries : List Entry) : List Entry := entries.filter (·.getEntryType = .normal)

/-- The `Ready` that is not yet advanced: there is none when the next is taken. -/
def turn (pending : Bool) : Effect μ → Option Bool
  | .ready _ => if pending then none else some true
  | .advance _ => some false
  | _ => some pending

/-- Every `Ready` was passed to `advance` before the next one was taken. -/
def AdvancedInTurn (trace : List (Effect μ)) : Prop := (trace.foldlM turn false).isSome

/-- What an iteration loses: the normal entries of a `Ready` with a snapshot, and otherwise those of
the `LightReady`. -/
def Iteration.dropped (it : Iteration μ) : List Entry :=
  it.ready.elim [] fun rd =>
    if ¬ rd.snapshot.isEmpty then normal rd.committedEntries else normal it.light.committedEntries

def Iteration.takesSnapshot (it : Iteration μ) : Bool := it.ready.any fun rd => ¬ rd.snapshot.isEmpty

end

/-! ## Handed out and given -/

open Iteration (applyEntries effects processReady takesSnapshot)

section
variable {μ : Type} {it : Iteration μ} {its : List (Iteration μ)} {t : List (Effect μ)}
  {rd : Ready μ}

@[simp]
theorem normal_append (es es' : List Entry) : normal (es ++ es') = normal es ++ normal es' :=
  filter_append _ _

@[simp]
theorem handedOut_append : handedOut (t ++ t') = handedOut t ++ handedOut t' := flatMap_append

@[simp]
theorem handedOut_ready_cons : handedOut (.ready rd :: t) = rd.committedEntries ++ handedOut t :=
  flatMap_cons

@[simp]
theorem handedOut_advance_cons :
    handedOut (.advance light :: t) = light.committedEntries ++ handedOut t :=
  flatMap_cons

@[simp]
theorem given_append : given (t ++ t') = given t ++ given t' := flatMap_append

@[simp]
theorem given_ready_cons : given (.ready rd :: t) = given t := flatMap_cons

@[simp]
theorem given_advance_cons : given (.advance light :: t) = given t :=
  flatMap_cons

/-- An effect that neither hands out nor gives entries, nor takes or returns a `Ready`. -/
def Effect.Internal : Effect μ → Prop
  | .ready _ | .advance _ | .apply _ => False
  | _ => True

/-- An effect that also leaves the state machine as it is. -/
def Effect.Quiet (x : Effect μ) : Prop := x.Internal ∧ ∀ sm, x ≠ .restore sm

section
variable (h : ∀ x ∈ t, x.Internal)
include h

theorem handedOut_of_internal : handedOut t = [] := by
  refine flatMap_eq_nil_iff.2 fun x hx => ?_
  cases x with
  | ready _ | advance _ => exact (h _ hx).elim
  | _ => rfl

theorem given_of_internal : given t = [] := by
  refine flatMap_eq_nil_iff.2 fun x hx => ?_
  cases x with
  | apply _ => exact (h _ hx).elim
  | _ => rfl

theorem foldlM_turn_of_internal : t.foldlM turn p = some p := by
  induction t with
  | nil => rfl
  | cons x t ih =>
    have hturn : turn p x = some p := by
      cases x with
      | ready _ | advance _ => exact (h _ (.head _)).elim
      | _ => rfl
    rw [foldlM_cons, hturn]
    exact ih fun y hy => h y (.tail _ hy)

end

theorem quiet_send (ms : List μ) : ∀ x ∈ ms.map Effect.send, x.Quiet := by
  simp [Effect.Quiet, Effect.Internal]

theorem quiet_applyConfChanges (rd : Ready μ) : ∀ x ∈ it.applyConfChanges rd, x.Quiet := by
  intro x hx
  obtain ⟨e, -, rfl⟩ := mem_map.1 hx
  simp [Effect.Quiet, Effect.Internal]

theorem internal_applySnapshot (snapshot : Snapshot) : ∀ x ∈ it.applySnapshot snapshot, x.Internal := by
  rw [Iteration.applySnapshot]
  split
  case isTrue => simp [Effect.Internal]
  case isFalse =>
  split
  case isTrue => simp [Effect.Internal]
  case isFalse => split <;> simp [Effect.Internal]

theorem quiet_persist (rd : Ready μ) : ∀ x ∈ it.persist rd, x.Quiet := by
  rw [Iteration.persist]
  split <;> simp [Effect.Quiet, Effect.Internal]

/-- An iteration with a snapshot does nothing else that counts. -/
theorem processReady_of_snapshot (it : Iteration μ) (h : ¬ rd.snapshot.isEmpty) :
    ∃ t : List (Effect μ), (∀ x ∈ t, x.Internal) ∧ it.processReady rd = .ready rd :: t := by
  refine ⟨_, fun x hx => ?_, by rw [processReady, if_pos h]⟩
  rcases mem_append.1 hx with hx | hx
  · exact (quiet_send _ x hx).1
  · exact internal_applySnapshot _ x hx

/-- Without a snapshot the `Ready` is advanced, and its entries are given to the state machine. -/
theorem processReady_of_isEmpty (it : Iteration μ) (h : rd.snapshot.isEmpty) :
    ∃ t : List (Effect μ), (∀ x ∈ t, x.Quiet) ∧
      it.processReady rd = .ready rd :: (t ++ .advance it.light :: applyEntries rd) := by
  refine ⟨rd.messages.map .send ++
    (it.applyConfChanges rd ++ it.persist rd ++ rd.persistedMessages.map .send), fun x hx => ?_, ?_⟩
  · rcases mem_append.1 hx with hx | hx
    · exact quiet_send _ x hx
    rcases mem_append.1 hx with hx | hx
    · rcases mem_append.1 hx with hx | hx
      · exact quiet_applyConfChanges rd x hx
      · exact quiet_persist rd x hx
    · exact quiet_send _ x hx
  · rw [processReady, if_neg (not_not.2 h), append_assoc (rd.messages.map Effect.send)]

@[simp]
theorem normal_given_applyEntries (rd : Ready μ) :
    normal (given (applyEntries rd)) = normal rd.committedEntries := by
  have hgiven : given (applyEntries rd) =
      rd.committedEntries.filter fun e => e.getEntryType ≠ .confChangeV2 := by
    rw [applyEntries]
    split
    case isTrue hnil =>
      rw [hnil]
      rfl
    case isFalse => exact flatMap_singleton _ _
  rw [hgiven, normal, filter_filter]
  refine filter_congr fun e _ => ?_
  cases e.getEntryType <;> rfl

@[simp]
theorem handedOut_applyEntries (rd : Ready μ) : handedOut (applyEntries rd) = [] := by
  rw [applyEntries]
  split <;> rfl

theorem normal_handedOut_effects (it : Iteration μ) :
    normal (handedOut it.effects) = normal (given it.effects) ++ it.dropped := by
  rw [effects, Iteration.dropped]
  cases it.ready with
  | none => rfl
  | some rd =>
  show normal (handedOut (it.processReady rd)) = normal (given (it.processReady rd)) ++
    if ¬ rd.snapshot.isEmpty then normal rd.committedEntries else normal it.light.committedEntries
  split
  case isTrue h =>
    obtain ⟨t, ht, heq⟩ := processReady_of_snapshot it h
    rw [heq]
    simp [handedOut_of_internal ht, given_of_internal ht, normal]
  case isFalse h =>
    obtain ⟨t, hquiet, heq⟩ := processReady_of_isEmpty it (not_not.1 h)
    have ht : ∀ x ∈ t, x.Internal := fun x hx => (hquiet x hx).1
    rw [heq]
    simp [handedOut_of_internal ht, given_of_internal ht]

theorem length_normal_handedOut (its : List (Iteration μ)) :
    (normal (handedOut (messageLoop its))).length =
      (normal (given (messageLoop its))).length + (its.flatMap (·.dropped)).length := by
  induction its with
  | nil => rfl
  | cons it its ih =>
    rw [messageLoop] at ih ⊢
    simp only [flatMap_cons, handedOut_append, given_append, normal_append,
      normal_handedOut_effects, length_append, ih]
    omega

theorem normal_given_eq_iff :
    normal (given (messageLoop its)) = normal (handedOut (messageLoop its)) ↔
      ∀ it ∈ its, it.dropped = [] := by
  constructor
  · intro h
    have hlen := length_normal_handedOut its
    rw [h] at hlen
    have hzero : (its.flatMap (·.dropped)).length = 0 := by omega
    exact flatMap_eq_nil_iff.1 (length_eq_zero_iff.1 hzero)
  · intro h
    induction its with
    | nil => rfl
    | cons it its ih =>
      have hrest := ih fun x hx => h x (.tail _ hx)
      rw [messageLoop] at hrest ⊢
      rw [flatMap_cons, handedOut_append, given_append, normal_append, normal_append, hrest,
        normal_handedOut_effects, h it (.head _), append_nil]

/-! ## One `Ready` after the other -/

/-- An iteration leaves its `Ready` pending exactly if it has a snapshot, and one that takes none
changes nothing. -/
theorem foldlM_turn_effects (it : Iteration μ) (p : Bool) :
    it.effects.foldlM turn p =
      if it.ready.isNone then some p else if p then none else some it.takesSnapshot := by
  rw [effects, takesSnapshot]
  cases it.ready with
  | none => rfl
  | some rd =>
  show (it.processReady rd).foldlM turn p = if p then none else some (decide ¬ rd.snapshot.isEmpty)
  cases p with
  | true =>
    by_cases h : rd.snapshot.isEmpty
    · obtain ⟨t, -, heq⟩ := processReady_of_isEmpty it h
      rfl
    · obtain ⟨t, -, heq⟩ := processReady_of_snapshot it h
      rfl
  | false =>
  by_cases h : rd.snapshot.isEmpty
  · obtain ⟨t, ht, heq⟩ := processReady_of_isEmpty it h
    have hafter : (applyEntries rd).foldlM turn false = some false := by
      rw [applyEntries]
      split <;> rfl
    have hrest :
        (t ++ .advance it.light :: applyEntries rd).foldlM turn true = some false := by
      rw [foldlM_append, foldlM_turn_of_internal fun x hx => (ht x hx).1]
      exact hafter
    rw [heq, decide_eq_false (not_not.2 h)]
    exact hrest
  · obtain ⟨t, ht, heq⟩ := processReady_of_snapshot it h
    rw [heq, decide_eq_true h]
    exact foldlM_turn_of_internal ht

theorem isSome_foldlM_turn_messageLoop (p : Bool) :
    ((messageLoop its).foldlM turn p).isSome ↔ (p = true → ∀ it ∈ its, it.ready = none) ∧
      its.Pairwise fun a b => a.takesSnapshot = true → b.ready = none := by
  induction its generalizing p with
  | nil => exact ⟨fun _ => ⟨fun _ _ h => absurd h not_mem_nil, .nil⟩, fun _ => rfl⟩
  | cons it its ih =>
    rw [messageLoop] at ih ⊢
    rw [flatMap_cons, foldlM_append, foldlM_turn_effects, pairwise_cons]
    cases hready : it.ready with
    | none =>
      have htakes : it.takesSnapshot = false := by
        rw [takesSnapshot, hready]
        rfl
      rw [htakes]
      refine (ih p).trans (and_congr ?_ ?_)
      · refine forall_congr' fun _ => ⟨fun h x hx => ?_, fun h x hx => h x (.tail _ hx)⟩
        rcases mem_cons.1 hx with rfl | hx
        · exact hready
        · exact h x hx
      · exact ⟨fun h => ⟨fun _ _ hfalse => (by cases hfalse), h⟩, fun h => h.2⟩
    | some rd =>
      cases p with
      | true =>
        refine ⟨fun h => (by cases h), fun h => ?_⟩
        have hnone := h.1 rfl it (.head _)
        rw [hready] at hnone
        cases hnone
      | false =>
        refine (ih it.takesSnapshot).trans ⟨fun h => ⟨fun hp => (by cases hp), ?_, h.2⟩, fun h => ?_⟩
        · exact fun x hx htakes => h.1 htakes x hx
        · exact ⟨fun htakes x hx => h.2.1 x hx htakes, h.2.2⟩

theorem advancedInTurn_iff : AdvancedInTurn (messageLoop its) ↔
    its.Pairwise fun a b => a.takesSnapshot = true → b.ready = none := by
  rw [AdvancedInTurn, isSome_foldlM_turn_messageLoop]
  exact ⟨fun h => h.2, fun h => ⟨fun hp => (by cases hp), h⟩⟩

/-- Every `Ready` is advanced and every normal entry applied once exactly if no iteration drops any
and none comes after a snapshot. -/
theorem applied_once_iff (its : List (Iteration μ)) :
    (AdvancedInTurn (messageLoop its) ∧
      normal (given (messageLoop its)) = normal (handedOut (messageLoop its))) ↔
    (its.Pairwise fun a b => a.takesSnapshot = true → b.ready = none) ∧ ∀ it ∈ its, it.dropped = [] :=
  and_congr advancedInTurn_iff normal_given_eq_iff

/-- An entry that raft-rs hands out after its write, in what `advance` returns, is never applied. -/
theorem light_ready_entry_dropped :
    ¬ ∀ its : List (Iteration Unit), AdvancedInTurn (messageLoop its) ∧
      normal (given (messageLoop its)) = normal (handedOut (messageLoop its)) := by
  let entry : Entry := ⟨0, 1, 1, [7], [], false⟩
  let ready : Ready Unit := ⟨[], ⟨⟨0, 0⟩, []⟩, [], [entry], none, []⟩
  intro h
  have hdropped := (h [⟨some ready, ⟨[entry], []⟩, true, true, true, none, fun _ => true⟩]).2
  exact absurd hdropped (by decide)

/-! ## The state machine -/

variable {deserialize : List UInt8 → Option MetadataCommand} {sm : MetadataStateMachine}

/-- The state machine after a trace. -/
def stateAfter (deserialize : List UInt8 → Option MetadataCommand) (sm : MetadataStateMachine)
    (trace : List (Effect μ)) : MetadataStateMachine :=
  trace.foldl (fun sm x =>
    match x with
    | .restore sm' => sm'
    | .apply entries => (applyCommittedEntries deserialize sm entries).getD sm
    | _ => sm) sm

/-- A normal entry that `apply_committed_entries` can read. -/
def Entry.Readable (deserialize : List UInt8 → Option MetadataCommand) (e : Entry) : Prop :=
  e.data = [] ∨ (deserialize e.data).isSome

@[simp]
theorem commands_append (es es' : List Entry) :
    commands deserialize (es ++ es') = commands deserialize es ++ commands deserialize es' :=
  filterMap_append

theorem commands_normal (es : List Entry) :
    commands deserialize (normal es) = commands deserialize es := by
  rw [commands, normal, filterMap_filter]
  refine filterMap_congr fun e _ => ?_
  by_cases h : e.getEntryType = .normal
  · rw [if_pos (decide_eq_true h)]
  · rw [if_neg (fun h' => h (of_decide_eq_true h')), if_neg fun h' => h h'.2]

theorem applyEntry_eq (h : e.getEntryType = .normal → e.Readable deserialize) :
    applyEntry deserialize sm e =
      some ((commands deserialize [e]).foldl MetadataStateMachine.apply sm) := by
  have hcommands : commands deserialize [e] =
      (if e.data ≠ [] ∧ e.getEntryType = .normal then deserialize e.data else none).toList := by
    rw [commands, filterMap_cons]
    cases (if e.data ≠ [] ∧ e.getEntryType = .normal then deserialize e.data else none) <;> rfl
  rw [applyEntry, hcommands]
  split
  case isTrue hdata => rw [if_neg fun h => h.1 hdata]; rfl
  case isFalse hdata =>
  cases htype : e.getEntryType with
  | normal =>
    rw [if_pos ⟨hdata, rfl⟩]
    obtain ⟨c, hc⟩ := Option.isSome_iff_exists.1 ((h htype).resolve_left hdata)
    rw [hc]
    rfl
  | confChange | confChangeV2 => rw [if_neg fun h => by cases h.2]; rfl

theorem applyCommittedEntries_eq (h : ∀ e ∈ normal es, e.Readable deserialize) :
    applyCommittedEntries deserialize sm es =
      some ((commands deserialize es).foldl MetadataStateMachine.apply sm) := by
  induction es generalizing sm with
  | nil => rfl
  | cons e es ih =>
    have happend : normal (e :: es) = normal [e] ++ normal es := normal_append [e] es
    have he : e.getEntryType = .normal → e.Readable deserialize := by
      intro htype
      refine h e (mem_filter.2 ⟨.head _, decide_eq_true htype⟩)
    have hes : ∀ x ∈ normal es, x.Readable deserialize := by
      intro x hx
      rw [happend] at h
      exact h x (mem_append_right _ hx)
    have hcommands :
        commands deserialize (e :: es) = commands deserialize [e] ++ commands deserialize es :=
      commands_append [e] es
    rw [applyCommittedEntries, foldlM_cons, applyEntry_eq he, hcommands, foldl_append]
    exact ih hes

/-- What is given to the state machine is applied to it, where nothing else changes it. -/
theorem stateAfter_eq (hrestore : ∀ sm', Effect.restore sm' ∉ t)
    (h : ∀ e ∈ normal (given t), e.Readable deserialize) :
    stateAfter deserialize sm t =
      (commands deserialize (given t)).foldl MetadataStateMachine.apply sm := by
  induction t generalizing sm with
  | nil => rfl
  | cons x t ih =>
    have hcons : given (x :: t) = given [x] ++ given t := given_append (t := [x])
    rw [hcons, normal_append] at h
    have hrest : ∀ sm, stateAfter deserialize sm t = _ := fun _ =>
      ih (fun sm' hmem => hrestore sm' (.tail _ hmem)) fun e he => h e (mem_append_right _ he)
    have hstep : stateAfter deserialize sm [x] =
        (commands deserialize (given [x])).foldl MetadataStateMachine.apply sm := by
      cases x with
      | apply entries =>
        have hgiven : given [(.apply entries : Effect μ)] = entries := flatMap_singleton _ _
        rw [hgiven] at h ⊢
        show (applyCommittedEntries deserialize sm entries).getD sm = _
        rw [applyCommittedEntries_eq fun e he => h e (mem_append_left _ he)]
        rfl
      | restore sm' => exact absurd (.head _) (hrestore sm')
      | _ => rfl
    rw [hcons, commands_append, foldl_append, ← hstep]
    exact hrest _

theorem restore_not_mem_messageLoop (h : ∀ it ∈ its, it.takesSnapshot = false)
    (sm' : MetadataStateMachine) : Effect.restore sm' ∉ messageLoop its := by
  intro hmem
  obtain ⟨it, hit, hmem⟩ := mem_flatMap.1 hmem
  have hfalse := h it hit
  rw [effects] at hmem
  rw [takesSnapshot] at hfalse
  cases hready : it.ready with
  | none =>
    rw [hready] at hmem
    cases hmem
  | some rd =>
  rw [hready] at hmem hfalse
  have hempty : rd.snapshot.isEmpty := not_not.1 (of_decide_eq_false hfalse)
  obtain ⟨t, ht, heq⟩ := processReady_of_isEmpty it hempty
  have happly : Effect.restore sm' ∉ applyEntries rd := by
    rw [applyEntries]
    split <;> simp
  have hquiet : Effect.restore sm' ∉ t := fun hmem => (ht _ hmem).2 sm' rfl
  simp [heq, happly, hquiet] at hmem

/-- Without snapshots, and where nothing is dropped, the state machine has every command once and in
order. -/
theorem stateAfter_messageLoop (hsnapshot : ∀ it ∈ its, it.takesSnapshot = false)
    (hdropped : ∀ it ∈ its, it.dropped = [])
    (hreadable : ∀ e ∈ normal (handedOut (messageLoop its)), e.Readable deserialize) :
    stateAfter deserialize sm (messageLoop its) =
      (commands deserialize (handedOut (messageLoop its))).foldl MetadataStateMachine.apply sm := by
  have heq := normal_given_eq_iff.2 hdropped
  rw [stateAfter_eq (restore_not_mem_messageLoop hsnapshot) (by rwa [heq]),
    ← commands_normal (given _), heq, commands_normal]

theorem stateAfter_messageLoop_two_readys :
    let entry index size : Entry := ⟨0, 1, index, .replicate size 7, [], false⟩
    let iteration entries : Iteration Unit := ⟨some ⟨[], ⟨⟨0, 0⟩, []⟩, entries, [], none, []⟩, ⟨[], []⟩,
      true, true, true, none, fun _ => true⟩
    stateAfter (fun data => some (.addNode (.ofNat data.length) "b")) ⟨fun _ => none, fun _ => none⟩
      (messageLoop [iteration [entry 1 1, entry 2 2], iteration [entry 3 3]]) =
      [.addNode 1 "b", .addNode 2 "b", .addNode 3 "b"].foldl .apply ⟨fun _ => none, fun _ => none⟩ :=
  stateAfter_messageLoop (by decide) (by decide) fun _ _ => .inr rfl

end

end ChronikStream.Raft
