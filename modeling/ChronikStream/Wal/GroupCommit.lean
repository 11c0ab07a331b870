import ChronikStream.Lib.Run
import ChronikStream.Wal.TailCache

/-!
# The commit queue of a partition

`PartitionCommitQueue` of `group_commit.rs` as a machine whose steps are the sections under one lock
or one atomic access. `pending` guards the queue, `file` the writer; the worker holds each inside
one step only, a truncation holds both from `lockFiles` to its end, and the tail cache and the
durable mark are reached under neither. A write carries the number of its append; `enqueued` and
`cuts` are ghost state.
-/

namespace ChronikStream

open Machine OffsetRange Option
open Bytes (i64Min)

/-- A write waiting for a group commit; `acks = 0` writes do not wait for its outcome (`waits`). -/
structure PendingWrite where
  id : Nat
  record : WalRecord
  waits : Bool
  deriving DecidableEq

instance : OffsetRange PendingWrite where
  base w := w.record.baseOffset
  last w := w.record.lastOffset

/-- The configuration the queue reads. `raftTopic` is set for the topics exempt from backpressure. -/
structure GroupCommitConfig where
  maxBatchSize : Nat
  maxQueueDepth : Nat
  tailCacheBytes : Nat
  raftTopic : Bool

inductive CommitWorker where
  | idle
  /-- It drained a batch at this truncation epoch and waits for the file lock. -/
  | drained (batch : List PendingWrite) (atEpoch : Nat)
  /-- It found the epoch changed, released the file lock and has not cleared the tail yet. -/
  | discarding (batch : List PendingWrite)
  /-- It wrote and synced a batch, released the file lock and has not raised the mark yet. -/
  | synced (batch : List PendingWrite)
  deriving DecidableEq

inductive CutPhase where
  | drained
  | cleared
  | stored
  deriving DecidableEq

inductive Truncation where
  | idle
  | bumped (target : Int)
  /-- It holds the pending lock, taken when the writes `seen` had been enqueued. -/
  | pendingLocked (target : Int) (seen : List Nat)
  /-- It holds both locks and took `dropped` off the queue. -/
  | holding (phase : CutPhase) (target : Int) (seen : List Nat) (dropped : List PendingWrite)
  deriving DecidableEq

/-- A `read_tail` that loaded the durable mark and has not taken the tail lock yet. -/
structure TailRead where
  offset : Int
  maxRecords : Nat
  durableThrough : Int
  deriving DecidableEq

namespace CommitWorker

/-- The batch the worker would write if it went on at this epoch. -/
def inFlight (worker : CommitWorker) (epoch : Nat) : List PendingWrite :=
  match worker with
  | .drained batch atEpoch => if epoch = atEpoch then batch else []
  | _ => []

end CommitWorker

namespace Truncation

/-- The target of a truncation that has taken the pending lock, and the writes enqueued then. -/
def cutting : Truncation → Option (List Nat × Int)
  | .pendingLocked target seen => some (seen, target)
  | .holding _ target seen _ => some (seen, target)
  | _ => none

end Truncation

structure PartitionCommitQueue where
  sealedSegments : List (List PendingWrite)
  active : List PendingWrite
  pending : List PendingWrite
  truncationEpoch : Nat
  tail : TailCache
  committedThrough : Int
  worker : CommitWorker
  truncation : Truncation
  /-- Appends that cached their record and have not enqueued it yet. -/
  arriving : List PendingWrite
  /-- Appends that were refused or told of a failure and have not cleared the tail yet. -/
  failedAppends : Nat
  readers : List TailRead
  nextId : Nat
  enqueued : List Nat
  cuts : List (List Nat × Int)

namespace PartitionCommitQueue

variable (cfg : GroupCommitConfig) (s : PartitionCommitQueue)

def segments : List (List PendingWrite) :=
  s.sealedSegments ++ [s.active]

def files : List PendingWrite :=
  s.segments.flatten

def inFlight : List PendingWrite :=
  s.worker.inFlight s.truncationEpoch

/-- No truncation holds the pending lock. -/
def pendingFree : Bool :=
  match s.truncation with
  | .idle | .bumped _ => true
  | .pendingLocked .. | .holding .. => false

/-- No truncation holds the file lock. -/
def fileFree : Bool :=
  match s.truncation with
  | .holding .. => false
  | .idle | .bumped _ | .pendingLocked .. => true

/-- The number of appends among these writes that wait for their outcome. -/
def waiters (ws : List PendingWrite) : Nat :=
  ws.countP (·.waits)

/-- A new queue over the segments found on disk, with a fresh active segment. -/
def new (disk : List (List WalRecord)) : PartitionCommitQueue where
  sealedSegments := disk.map (·.map (⟨0, ·, false⟩))
  active := []
  pending := []
  truncationEpoch := 0
  tail := .new cfg.tailCacheBytes
  committedThrough := i64Min
  worker := .idle
  truncation := .idle
  arriving := []
  failedAppends := 0
  readers := []
  nextId := 1
  enqueued := [0]
  cuts := []

/-! ## The sections of `append` -/

/-- The record enters the tail cache before it is enqueued. -/
def cacheAppend (record : WalRecord) (acks : Int) : PartitionCommitQueue :=
  { s with
    tail := s.tail.push record record.heapSize
    arriving := s.arriving ++ [⟨s.nextId, record, acks ≠ 0⟩]
    nextId := s.nextId + 1 }

/-- The enqueue, refused for a write that waits where the queue is full. -/
def enqueueWrite (w : PendingWrite) : PartitionCommitQueue :=
  let rest := s.arriving.filter (·.id ≠ w.id)
  if w.waits ∧ ¬ cfg.raftTopic ∧ cfg.maxQueueDepth ≤ s.pending.length then
    { s with arriving := rest, failedAppends := s.failedAppends + 1 }
  else
    { s with
      arriving := rest
      pending := s.pending ++ [w]
      enqueued := s.enqueued ++ [w.id] }

/-! ## The sections of `commit_batch` -/

def drainBatch : PartitionCommitQueue :=
  { s with
    pending := s.pending.drop cfg.maxBatchSize
    worker := .drained (s.pending.take cfg.maxBatchSize) s.truncationEpoch }

/-- The section under the file lock: the epoch check, then the write and the sync. -/
def writeBatch (batch : List PendingWrite) (atEpoch : Nat) : PartitionCommitQueue :=
  if s.truncationEpoch ≠ atEpoch then { s with worker := .discarding batch }
  else { s with active := s.active ++ batch, worker := .synced batch }

/-- The write or the sync fails: the batch is given up and its response channels are closed. -/
def failBatch (batch : List PendingWrite) : PartitionCommitQueue :=
  { s with worker := .idle, failedAppends := s.failedAppends + waiters batch }

/-- The end of a discarded batch: the tail is cleared and the waiters are told. -/
def discardBatch (batch : List PendingWrite) : PartitionCommitQueue :=
  { s with
    tail := s.tail.clear
    worker := .idle
    failedAppends := s.failedAppends + waiters batch }

/-- The end of a written batch: the mark is raised to its highest offset. -/
def publishBatch (batch : List PendingWrite) : PartitionCommitQueue :=
  { s with
    committedThrough :=
      ((batch.map fun w => w.record.lastOffset).max?).elim s.committedThrough
        (max s.committedThrough)
    worker := .idle }

/-- The active segment becomes immutable and a new one is opened. -/
def rotateToNewSegment : PartitionCommitQueue :=
  { s with sealedSegments := s.sealedSegments ++ [s.active], active := [] }

/-! ## The sections of `truncate_to` -/

def lockBoth (target : Int) (seen : List Nat) : PartitionCommitQueue :=
  { s with pending := [], truncation := .holding .drained target seen s.pending }

/-- The mark is set below the target, whatever the files hold. -/
def storeMark (target : Int) (seen : List Nat) (dropped : List PendingWrite) : PartitionCommitQueue :=
  { s with
    committedThrough := max i64Min (target - 1)
    truncation := .holding .stored target seen dropped }

/-- The file surgery, with a rotation where it touched the disk. -/
def cutSegments (target : Int) : PartitionCommitQueue :=
  let remaining := truncateSegments target s.segments
  let touched : Bool := remaining.flatten.length ≠ s.files.length
  { s with
    sealedSegments := if touched then remaining else s.sealedSegments
    active := if touched then [] else s.active }

/-- The end of a truncation: the locks are released and the dropped writes are told. -/
def releaseLocks (dropped : List PendingWrite) : PartitionCommitQueue :=
  { s with truncation := .idle, failedAppends := s.failedAppends + waiters dropped }

/-! ## The machine -/

inductive Action where
  /-- `append`: serialise the record and push it into the tail cache. -/
  | cache (record : WalRecord) (acks : Int)
  /-- `append`: the pending section of one of the appends. -/
  | enqueue (id : Nat)
  /-- `append`: the cleanup after an error. -/
  | clearTail
  | drain
  | write
  | writeFails
  | discard
  | publish
  | rotate
  /-- `truncate_to`: the epoch is bumped before any lock is taken. -/
  | bump (target : Int)
  | lockPending
  | lockFiles
  | clearCache
  | storeMark
  | cut
  /-- `truncate_to` returns an error before it touched a file. -/
  | syncFails
  /-- `read_tail`: the mark is loaded before the tail lock is taken. -/
  | loadMark (offset : Int) (maxRecords : Nat)
  /-- `read_tail`: one of the readers reads the tail. -/
  | serve (reader : Nat)
  deriving DecidableEq

def step : Action → Option PartitionCommitQueue
  | .cache record acks => some (s.cacheAppend record acks)
  | .enqueue id =>
    if s.pendingFree then (s.arriving.find? (·.id == id)).map (s.enqueueWrite cfg) else none
  | .clearTail =>
    if s.failedAppends = 0 then none
    else some { s with tail := s.tail.clear, failedAppends := s.failedAppends - 1 }
  | .drain =>
    if s.worker = .idle ∧ s.pendingFree ∧ s.pending ≠ [] then some (s.drainBatch cfg) else none
  | .write =>
    match s.worker with
    | .drained batch atEpoch => if s.fileFree then some (s.writeBatch batch atEpoch) else none
    | _ => none
  | .writeFails =>
    match s.worker with
    | .drained batch atEpoch =>
      if s.fileFree ∧ s.truncationEpoch = atEpoch then some (s.failBatch batch) else none
    | _ => none
  | .discard =>
    match s.worker with
    | .discarding batch => some (s.discardBatch batch)
    | _ => none
  | .publish =>
    match s.worker with
    | .synced batch => some (s.publishBatch batch)
    | _ => none
  | .rotate => if s.fileFree then some s.rotateToNewSegment else none
  | .bump target =>
    match s.truncation with
    | .idle =>
      some { s with truncationEpoch := s.truncationEpoch + 1, truncation := .bumped target }
    | _ => none
  | .lockPending =>
    match s.truncation with
    | .bumped target => some { s with truncation := .pendingLocked target s.enqueued }
    | _ => none
  | .lockFiles =>
    match s.truncation with
    | .pendingLocked target seen => some (s.lockBoth target seen)
    | _ => none
  | .clearCache =>
    match s.truncation with
    | .holding .drained target seen dropped =>
      some { s with tail := s.tail.clear, truncation := .holding .cleared target seen dropped }
    | _ => none
  | .storeMark =>
    match s.truncation with
    | .holding .cleared target seen dropped => some (s.storeMark target seen dropped)
    | _ => none
  | .cut =>
    match s.truncation with
    | .holding .stored target seen dropped =>
      some { (s.cutSegments target).releaseLocks dropped with cuts := s.cuts ++ [(seen, target)] }
    | _ => none
  | .syncFails =>
    match s.truncation with
    | .holding .stored _ _ dropped => some (s.releaseLocks dropped)
    | _ => none
  | .loadMark offset maxRecords =>
    some { s with readers := s.readers ++ [⟨offset, maxRecords, s.committedThrough⟩] }
  | .serve reader =>
    if reader < s.readers.length then some { s with readers := s.readers.eraseIdx reader } else none

/-- One past the highest offset committed under this process. -/
def durableEndOffset : Option Int :=
  if s.committedThrough = i64Min then none else some (s.committedThrough + 1)

/-- What a reader gets from the tail if it takes the tail lock now. -/
def readTail (reader : TailRead) : Option (List WalRecord) :=
  s.tail.readFrom reader.offset reader.maxRecords reader.durableThrough

end PartitionCommitQueue

/-- The machine of one partition, opened over the segments on disk. -/
def groupCommit (cfg : GroupCommitConfig) (disk : List (List WalRecord)) :
    Machine PartitionCommitQueue PartitionCommitQueue.Action where
  init := .new cfg disk
  step := PartitionCommitQueue.step cfg

/-! ## What a step can do -/

namespace PartitionCommitQueue

/-- Where each action is enabled, and what it does there. -/
inductive Stepped (cfg : GroupCommitConfig) (s : PartitionCommitQueue) :
    Action → PartitionCommitQueue → Prop where
  | cache (record : WalRecord) (acks : Int) :
    Stepped cfg s (.cache record acks) (s.cacheAppend record acks)
  | enqueue (id : Nat) {w : PendingWrite} (free : s.pendingFree) (arrived : w ∈ s.arriving) :
    Stepped cfg s (.enqueue id) (s.enqueueWrite cfg w)
  | clearTail (failed : s.failedAppends ≠ 0) :
    Stepped cfg s .clearTail { s with tail := s.tail.clear, failedAppends := s.failedAppends - 1 }
  | drain (idle : s.worker = .idle) (free : s.pendingFree) (waiting : s.pending ≠ []) :
    Stepped cfg s .drain (s.drainBatch cfg)
  | write {batch : List PendingWrite} {atEpoch : Nat} (worker : s.worker = .drained batch atEpoch)
    (free : s.fileFree) : Stepped cfg s .write (s.writeBatch batch atEpoch)
  | writeFails {batch : List PendingWrite} {atEpoch : Nat}
    (worker : s.worker = .drained batch atEpoch) (free : s.fileFree)
    (current : s.truncationEpoch = atEpoch) : Stepped cfg s .writeFails (s.failBatch batch)
  | discard {batch : List PendingWrite} (worker : s.worker = .discarding batch) :
    Stepped cfg s .discard (s.discardBatch batch)
  | publish {batch : List PendingWrite} (worker : s.worker = .synced batch) :
    Stepped cfg s .publish (s.publishBatch batch)
  | rotate (free : s.fileFree) : Stepped cfg s .rotate s.rotateToNewSegment
  | bump (target : Int) (idle : s.truncation = .idle) : Stepped cfg s (.bump target)
    { s with truncationEpoch := s.truncationEpoch + 1, truncation := .bumped target }
  | lockPending {target : Int} (bumped : s.truncation = .bumped target) : Stepped cfg s .lockPending
    { s with truncation := .pendingLocked target s.enqueued }
  | lockFiles {target : Int} {seen : List Nat} (locked : s.truncation = .pendingLocked target seen) :
    Stepped cfg s .lockFiles (s.lockBoth target seen)
  | clearCache {target : Int} {seen : List Nat} {dropped : List PendingWrite}
    (holding : s.truncation = .holding .drained target seen dropped) : Stepped cfg s .clearCache
      { s with tail := s.tail.clear, truncation := .holding .cleared target seen dropped }
  | storeMark {target : Int} {seen : List Nat} {dropped : List PendingWrite}
    (holding : s.truncation = .holding .cleared target seen dropped) :
    Stepped cfg s .storeMark (s.storeMark target seen dropped)
  | cut {target : Int} {seen : List Nat} {dropped : List PendingWrite}
    (holding : s.truncation = .holding .stored target seen dropped) : Stepped cfg s .cut
      { (s.cutSegments target).releaseLocks dropped with cuts := s.cuts ++ [(seen, target)] }
  | syncFails {target : Int} {seen : List Nat} {dropped : List PendingWrite}
    (holding : s.truncation = .holding .stored target seen dropped) :
    Stepped cfg s .syncFails (s.releaseLocks dropped)
  | loadMark (offset : Int) (maxRecords : Nat) : Stepped cfg s (.loadMark offset maxRecords)
    { s with readers := s.readers ++ [⟨offset, maxRecords, s.committedThrough⟩] }
  | serve (reader : Nat) (waits : reader < s.readers.length) :
    Stepped cfg s (.serve reader) { s with readers := s.readers.eraseIdx reader }

theorem stepped_of_step (hs : step cfg s a = some s') : Stepped cfg s a s' := by
  cases a with
  | cache record acks =>
    cases hs
    exact .cache record acks
  | loadMark offset maxRecords =>
    cases hs
    exact .loadMark offset maxRecords
  | enqueue id =>
    obtain ⟨hfree, hs⟩ := ite_none_right_eq_some.1 hs
    obtain ⟨w, hw, rfl⟩ := map_eq_some_iff.1 hs
    exact .enqueue id hfree (List.mem_of_find?_eq_some hw)
  | clearTail =>
    obtain ⟨hfailed, rfl⟩ := of_not_guard hs
    exact .clearTail hfailed
  | drain =>
    obtain ⟨⟨hworker, hfree, hsome⟩, rfl⟩ := of_guard hs
    exact .drain hworker hfree hsome
  | rotate =>
    obtain ⟨hfree, rfl⟩ := of_guard hs
    exact .rotate hfree
  | serve reader =>
    obtain ⟨hwaits, rfl⟩ := of_guard hs
    exact .serve reader hwaits
  | write =>
    simp only [step] at hs
    split at hs
    case h_1 batch atEpoch hworker =>
      obtain ⟨hfree, rfl⟩ := of_guard hs
      exact .write hworker hfree
    case h_2 => cases hs
  | writeFails =>
    simp only [step] at hs
    split at hs
    case h_1 batch atEpoch hworker =>
      obtain ⟨⟨hfree, hcurrent⟩, rfl⟩ := of_guard hs
      exact .writeFails hworker hfree hcurrent
    case h_2 => cases hs
  | discard | publish | bump | lockPending | lockFiles | clearCache | storeMark | cut | syncFails =>
    simp only [step] at hs
    split at hs <;> cases hs
    constructor
    assumption

end PartitionCommitQueue

/-! ## What the steps do to the files -/

namespace PartitionCommitQueue

variable {s : PartitionCommitQueue}

theorem files_rotateToNewSegment : s.rotateToNewSegment.files = s.files := by
  simp [files, segments, rotateToNewSegment]

theorem files_append_active (s : PartitionCommitQueue) (batch : List PendingWrite) :
    { s with active := s.active ++ batch }.files = s.files ++ batch := by
  simp [files, segments]

/-- What is left of the files after a cut, whether or not it rotated. -/
theorem files_cutSegments (s : PartitionCommitQueue) (target : Int) :
    (s.cutSegments target).files = (truncateSegments target s.segments).flatten := by
  rw [files, segments, cutSegments]
  by_cases hlen : (truncateSegments target s.segments).flatten.length = s.files.length
  · rw [(prefix_truncateSegments target s.segments).eq_of_length hlen]
    simp [files, segments]
  · simp only [hlen, ne_eq, not_false_eq_true, decide_true, if_true, List.flatten_concat,
      List.append_nil]

end PartitionCommitQueue

/-! ## A partition to run -/

namespace GroupCommitFixture

def config : GroupCommitConfig :=
  ⟨10000, 50000, 2 * 1024 * 1024, false⟩

def batch (base last : Int) : WalRecord :=
  .newV2 0 "t" 0 [] base last (last - base + 1)

end GroupCommitFixture

end ChronikStream
