import ChronikStream.Lib.Run
import ChronikStream.Lib.Slots
import ChronikStream.Metadata.Store

/-!
# Memory and replay

Every operation appends its event to the WAL and then applies it, and nothing orders the steps of
different operations (`replay_differs`). A replicated event is applied also where its append has
failed, and `update_partition_offset` changes memory without an event. Without these the state in
memory is what the replay gives (`memory_eq_replay`).
-/

namespace ChronikStream.Metadata

open Machine MetadataState

/-- The memory and the WAL of a node. The mark of an event says whether its operation has applied it. -/
structure StoreRun where
  memory : MetadataState
  wal : List (MetadataEvent × Bool)

namespace StoreRun

inductive Action where
  /-- The append of an operation or of a replicated event returns. One that fails ends an operation. -/
  | append (e : MetadataEvent)
  | apply (i : Nat)
  /-- A replicated event whose append has failed is applied all the same. -/
  | applyUnlogged (e : MetadataEvent)
  | updateLogStart (key : String × Nat) (highWatermark logStartOffset : Int)

def step (s : StoreRun) : Action → Option StoreRun
  | .append e => some { s with wal := s.wal ++ [(e, false)] }
  | .apply i =>
    match s.wal[i]? with
    | some (e, false) => some ⟨s.memory.apply e, s.wal.set i (e, true)⟩
    | _ => none
  | .applyUnlogged e => some { s with memory := s.memory.apply e }
  | .updateLogStart key highWatermark logStartOffset =>
    some { s with memory := s.memory.updateLogStart key highWatermark logStartOffset }

def machine (nodeId : UInt64) : Machine StoreRun Action where
  init := ⟨.new nodeId, []⟩
  step := step

def Completed (s : StoreRun) : Prop := ∀ x ∈ s.wal, x.2 = true

def restarted (s : StoreRun) (nodeId : UInt64) : MetadataState :=
  (new nodeId).replayEvents (s.wal.map Prod.fst)

/-- Events overtake only independent ones, replicated events are logged, and log starts are raised
by events. -/
def InOrder (s : StoreRun) : Action → Prop
  | .append _ => True
  | .apply i => ∀ e ∈ s.wal[i]?, ∀ j < i, ∀ e', s.wal[j]? = some (e', false) → Independent e' e.1
  | .applyUnlogged _ => False
  | .updateLogStart key _ logStartOffset => ∃ offsets ∈ s.memory.partitionOffsets key,
      logStartOffset ≤ offsets.2

variable {s s' : StoreRun} {nodeId : UInt64}

theorem updateLogStart_eq_self {m : MetadataState}
    (h : ∃ offsets ∈ m.partitionOffsets key, lso ≤ offsets.2) : m.updateLogStart key hw lso = m := by
  obtain ⟨⟨hwm, current⟩, hoffsets, hle⟩ := h
  have hoffsets : m.partitionOffsets key = some (hwm, current) := hoffsets
  have hsame : Function.update m.partitionOffsets key
      (some (hwm, if current < lso then lso else current)) =
      m.partitionOffsets := by
    rw [if_neg (not_lt.2 hle), ← hoffsets, Function.update_eq_self]
  simp only [updateLogStart, hoffsets, hsame]

theorem deferred_step {a : Action}
    (h : Replay.Deferred apply (.new nodeId) s.wal s.memory) (hok : s.InOrder a)
    (hstep : s.step a = some s') : Replay.Deferred apply (.new nodeId) s'.wal s'.memory := by
  cases a with
  | append e =>
    cases hstep
    exact h.append e
  | apply i =>
    simp only [step] at hstep
    split at hstep
    · rename_i e hget
      cases hstep
      obtain ⟨before, after, hwal, htake, hset, -⟩ := Slots.exists_split hget
      rw [hset]
      rw [hwal] at h
      refine h.apply fun e' he' => commute_of_independent ?_
      rw [← htake] at he'
      obtain ⟨j, hj⟩ := List.mem_iff_getElem?.1 he'
      rw [List.getElem?_take] at hj
      split at hj
      · exact hok _ hget j ‹_› e' hj
      · cases hj
    · cases hstep
  | applyUnlogged e => exact hok.elim
  | updateLogStart key hw lso =>
    cases hstep
    rw [updateLogStart_eq_self hok]
    exact h

/-- When all operations have completed, a restart changes nothing. -/
theorem memory_eq_replay (h : Reaches (machine nodeId) InOrder s) (hcompleted : s.Completed) :
    s.memory = s.restarted nodeId := by
  have hdeferred := h.invariant
    (I := fun s => Replay.Deferred apply (.new nodeId) s.wal s.memory)
    ⟨rfl, .nil⟩ fun s a s' hs hok hstep => deferred_step hs hok hstep
  exact hdeferred.eq_replay hcompleted

/-- The commit of an offset of group `g` for a partition of topic `t`. -/
def commit (partition : Nat) (offset : Int) : MetadataEvent :=
  ⟨0, 0, .offsetCommitted ⟨"g", "t", partition, offset, none, 0⟩⟩

theorem independent_commit (h : partition ≠ partition')
    (offset offset' : Int) : Independent (commit partition offset) (commit partition' offset') := by
  rintro c ⟨htouches, htouches'⟩
  cases c with
  | consumerOffset key =>
    obtain rfl : key = ("g", "t", partition) := htouches
    have heq : ("g", "t", partition) = ("g", "t", partition') := htouches'
    exact h (congrArg (·.2.2) heq)
  | _ => exact htouches

/-- The commits for two partitions, applied in the other order than they were appended in. -/
theorem memory_eq_replay_two_commits :
    ∃ s, Reaches (machine 1) InOrder s ∧ s.Completed ∧
      s.wal = [(commit 0 5, true), (commit 1 7, true)] ∧ s.memory = s.restarted 1 := by
  have happended : Reaches (machine 1) InOrder ⟨.new 1, [(commit 0 5, false), (commit 1 7, false)]⟩ :=
    (Reaches.init.step (.append (commit 0 5)) trivial rfl).step (.append (commit 1 7)) trivial rfl
  have hsecond : InOrder ⟨.new 1, [(commit 0 5, false), (commit 1 7, false)]⟩ (.apply 1) := by
    intro e he j hj e' he'
    obtain rfl : (commit 1 7, false) = e := Option.some.inj he
    obtain rfl : j = 0 := by omega
    obtain rfl : commit 0 5 = e' := congrArg Prod.fst (Option.some.inj he')
    exact independent_commit (by decide) 5 7
  let memory := (new 1).apply (commit 1 7)
  have hfirst : InOrder ⟨memory, [(commit 0 5, false), (commit 1 7, true)]⟩ (.apply 0) :=
    fun _ _ j hj => absurd hj (Nat.not_lt_zero j)
  have hreaches : Reaches (machine 1) InOrder
      ⟨memory.apply (commit 0 5), [(commit 0 5, true), (commit 1 7, true)]⟩ :=
    (happended.step (.apply 1) hsecond rfl).step (.apply 0) hfirst rfl
  have hcompleted : Completed ⟨memory.apply (commit 0 5), [(commit 0 5, true), (commit 1 7, true)]⟩ := by
    simp [Completed]
  exact ⟨_, hreaches, hcompleted, rfl, memory_eq_replay hreaches hcompleted⟩

/-- Two commits of one offset, applied in the other order than they were appended in. -/
theorem replay_differs :
    ¬ ∀ nodeId s, Reaches (machine nodeId) Always s → s.Completed → s.memory = s.restarted nodeId := by
  intro h
  obtain ⟨s, hreaches, hcompleted, hne⟩ := exists_reaches_of_run (machine 1) Always
    [.append (commit 0 5), .append (commit 0 7), .apply 1, .apply 0]
    (fun s => (∀ x ∈ s.wal, x.2 = true) ∧
      s.memory.consumerOffsets ("g", "t", 0) ≠ (s.restarted 1).consumerOffsets ("g", "t", 0)) (by decide)
  exact hne (by rw [← h 1 s hreaches hcompleted])

end StoreRun

end ChronikStream.Metadata
