import ChronikStream.Wal.GroupCommit

/-!
# Answering `acks=1` produces from commit callbacks

A request reserves its offsets, registers, and hands its batch to the write-ahead log without
waiting; a commit callback answers every registered request between its lowest and highest offset,
also one that is not in the batch. That cannot be where appends are enqueued in the order of their
reservations (`EnqueuedInOrder`).
-/

namespace ChronikStream

open OffsetRange Machine List Option

structure Reservation where
  base : Int
  last : Int
  deriving DecidableEq

instance : OffsetRange Reservation where
  base := Reservation.base
  last := Reservation.last

def PendingWrite.reservation (w : PendingWrite) : Reservation :=
  ⟨w.record.baseOffset, w.record.lastOffset⟩

/-- The batch the worker has taken off the queue, up to the moment it publishes it. -/
def CommitWorker.current : CommitWorker → List PendingWrite
  | .drained batch _ => batch
  | .synced batch => batch
  | _ => []

/-- One partition on the produce path. `history` is ghost state: the writes enqueued so far. -/
structure ProducePartition where
  wal : PartitionCommitQueue
  nextOffset : Int
  /-- Requests that have reserved their offsets and not registered yet. -/
  reserved : List Reservation
  /-- Requests that have registered and not called `append` yet. -/
  registered : List Reservation
  /-- The bucket of the pipeline, keyed by base offset. -/
  bucket : List Reservation
  /-- Registered requests that returned an error: their receiver is dropped. -/
  gone : List Reservation
  /-- Commit callbacks that have been spawned and not run yet. -/
  callbacks : List (Int × Int)
  /-- Requests answered with success. -/
  released : List Reservation
  history : List PendingWrite

namespace ProducePartition

variable (s : ProducePartition)

def waiting : List Reservation :=
  s.reserved ++ (s.registered ++ s.wal.arriving.map PendingWrite.reservation)

/-- `fetch_add` on the next offset. -/
def reserveOffsets (count : Nat) : ProducePartition :=
  { s with
    nextOffset := s.nextOffset + count
    reserved := s.reserved ++ [⟨s.nextOffset, s.nextOffset + count - 1⟩] }

/-- Registration replaces an entry with the same base offset. -/
def register (r : Reservation) : ProducePartition :=
  { s with
    reserved := s.reserved.filter (· ≠ r)
    registered := s.registered ++ [r]
    bucket := s.bucket.filter (·.base ≠ r.base) ++ [r] }

/-- The start of the WAL append, with `acks = 0`. -/
def startAppend (record : WalRecord) : ProducePartition :=
  { s with
    registered := s.registered.filter (· ≠ ⟨record.baseOffset, record.lastOffset⟩)
    wal := s.wal.cacheAppend record 0 }

/-- The entries of the bucket a commit of `[minOffset, maxOffset]` covers. -/
def Covered (minOffset maxOffset : Int) (r : Reservation) : Prop :=
  minOffset ≤ r.base ∧ r.base ≤ maxOffset ∧ r.last ≤ maxOffset
deriving Decidable

/-- Every covered entry is removed and answered with success, if its request still waits. -/
def notifyBatchCommitted (minOffset maxOffset : Int) : ProducePartition :=
  { s with
    bucket := s.bucket.filter (¬ Covered minOffset maxOffset ·)
    released := s.released ++
      s.bucket.filter fun r => Covered minOffset maxOffset r ∧ r ∉ s.gone }

/-- The offsets a commit reports: the lowest base and the highest last offset of its batch. -/
def callbackOf (batch : List PendingWrite) : List (Int × Int) :=
  match (batch.map fun w => w.record.baseOffset).min?,
      (batch.map fun w => w.record.lastOffset).max? with
  | some minOffset, some maxOffset => [(minOffset, maxOffset)]
  | _, _ => []

/-- The steps of requests, of the commit queue and of the callbacks. -/
inductive Action where
  | reserve (count : Nat)
  /-- A request returns an error before it registers. -/
  | giveUp (r : Reservation)
  | register (r : Reservation)
  | append (record : WalRecord)
  /-- The append returns an error: the registration stays behind. -/
  | appendFails (r : Reservation)
  | enqueue (id : Nat)
  /-- A step of the commit queue that is not an append, a publication or a truncation. -/
  | wal (a : PartitionCommitQueue.Action)
  /-- A commit publishes its batch and spawns its callback. -/
  | publish
  | notify (callback : Nat)
  | timeout (r : Reservation)
  deriving DecidableEq

end ProducePartition

/-- The steps of the commit queue between an enqueue and a publication. -/
def PartitionCommitQueue.Action.background : PartitionCommitQueue.Action → Bool
  | .clearTail | .drain | .write | .writeFails | .discard | .rotate | .loadMark .. | .serve _ => true
  | _ => false

namespace ProducePartition

def step (cfg : GroupCommitConfig) (s : ProducePartition) : Action → Option ProducePartition
  | .reserve count => if 0 < count then some (s.reserveOffsets count) else none
  | .giveUp r =>
    if r ∈ s.reserved then some { s with reserved := s.reserved.filter (· ≠ r) } else none
  | .register r => if r ∈ s.reserved then some (s.register r) else none
  | .append record =>
    if ⟨record.baseOffset, record.lastOffset⟩ ∈ s.registered then some (s.startAppend record)
    else none
  | .appendFails r =>
    if r ∈ s.registered then
      some { s with registered := s.registered.filter (· ≠ r), gone := s.gone ++ [r] }
    else none
  | .enqueue id =>
    (s.wal.arriving.find? (·.id == id)).bind fun w =>
      (s.wal.step cfg (.enqueue id)).map fun wal => { s with wal := wal, history := s.history ++ [w] }
  | .wal a =>
    if a.background then (s.wal.step cfg a).map fun wal => { s with wal := wal } else none
  | .publish =>
    (s.wal.step cfg .publish).map fun wal =>
      { s with wal := wal, callbacks := s.callbacks ++ callbackOf s.wal.worker.current }
  | .notify callback =>
    (s.callbacks[callback]?).map fun c =>
      { s.notifyBatchCommitted c.1 c.2 with callbacks := s.callbacks.eraseIdx callback }
  | .timeout r =>
    if r ∈ s.bucket then some { s with bucket := s.bucket.filter (· ≠ r) } else none

/-- A request was answered with success only when its own batch is in the segment files. -/
def ReleasedDurable (s : ProducePartition) : Prop :=
  ∀ r ∈ s.released, ∃ w ∈ s.wal.files, w ∈ s.history ∧ w.reservation = r
deriving Decidable

/-- A batch is enqueued only when every request with lower offsets that has not given up is. -/
def EnqueuedInOrder (s : ProducePartition) : Action → Prop
  | .enqueue id => ∀ w ∈ s.wal.arriving.find? (·.id == id),
      (∀ r ∈ s.reserved ++ s.registered, base w < base r) ∧
        ∀ x ∈ s.wal.arriving, x.id ≠ w.id → base w < base x
  | _ => True

instance : DecidableRel EnqueuedInOrder := fun _ _ => by
  unfold EnqueuedInOrder
  split <;> infer_instance

end ProducePartition

/-- The machine of the produce path, opened over the segments on disk with the log ending at
`start`. -/
def producePath (cfg : GroupCommitConfig) (disk : List (List WalRecord)) (start : Int) :
    Machine ProducePartition ProducePartition.Action where
  init := ⟨.new cfg disk, start, [], [], [], [], [], [], []⟩
  step := ProducePartition.step cfg

/-! ## What the background steps of the commit queue do -/

/-- A background step leaves the queue as it is, drains a batch, writes the batch, or gives it up. -/
theorem PartitionCommitQueue.background_cases {cfg : GroupCommitConfig}
    {s s' : PartitionCommitQueue} (ha : a.background) (hs : s.step cfg a = some s') :
    (s'.arriving = s.arriving ∧ s'.nextId = s.nextId) ∧
      ((s'.files = s.files ∧ s'.pending = s.pending ∧ s'.worker = s.worker) ∨
        (s.worker = .idle ∧ s'.files = s.files ∧
          ∃ batch e, s'.worker = .drained batch e ∧ s.pending = batch ++ s'.pending) ∨
        (∃ batch e, s.worker = .drained batch e ∧ s'.worker = .synced batch ∧
          s'.files = s.files ++ batch ∧ s'.pending = s.pending) ∨
        (s'.files = s.files ∧ s'.pending = s.pending ∧ s'.worker.current = [])) := by
  cases stepped_of_step hs with
  | clearTail | loadMark | serve => exact ⟨⟨rfl, rfl⟩, .inl ⟨rfl, rfl, rfl⟩⟩
  | rotate => exact ⟨⟨rfl, rfl⟩, .inl ⟨files_rotateToNewSegment, rfl, rfl⟩⟩
  | drain idle =>
    exact ⟨⟨rfl, rfl⟩, .inr (.inl ⟨idle, rfl, _, _, rfl, (take_append_drop _ _).symm⟩)⟩
  | @write batch atEpoch worker =>
    rw [writeBatch]
    split
    · exact ⟨⟨rfl, rfl⟩, .inr (.inr (.inr ⟨rfl, rfl, rfl⟩))⟩
    · exact ⟨⟨rfl, rfl⟩, .inr (.inr (.inl ⟨batch, atEpoch, worker, rfl,
        files_append_active s batch, rfl⟩))⟩
  | writeFails | discard => exact ⟨⟨rfl, rfl⟩, .inr (.inr (.inr ⟨rfl, rfl, rfl⟩))⟩
  | cache | enqueue | publish | bump | lockPending | lockFiles | clearCache | storeMark | cut
  | syncFails => cases ha

/-! ## The invariant of runs in order -/

namespace ProducePartition

/-- A callback covers no request that is not enqueued, and of the enqueued ones only written ones. -/
structure CallbackInv (files : List PendingWrite) (nextOffset : Int) (waiting : List Reservation)
    (history : List PendingWrite) (c : Int × Int) : Prop where
  below : c.2 < nextOffset
  open' : ∀ q ∈ waiting, c.2 < q.base
  written : ∀ w ∈ history, c.1 ≤ base w → last w ≤ c.2 → w ∈ files

/-- Appends with `acks = 0` are never refused, and each has its own number. -/
structure ArrivingInv (arriving : List PendingWrite) (nextId : Nat) : Prop where
  nowait : ∀ w ∈ arriving, w.waits = false
  numbered : ∀ w ∈ arriving, w.id < nextId
  distinct : ∀ x ∈ arriving, ∀ y ∈ arriving, x.id = y.id → x = y

structure PipelineInv (s : ProducePartition) : Prop where
  range : ∀ q ∈ s.waiting, q.base ≤ q.last ∧ q.last < s.nextOffset
  apart : ∀ q ∈ s.waiting, ∀ q' ∈ s.waiting, q = q' ∨ Apart q q'
  arriving : ArrivingInv s.wal.arriving s.wal.nextId
  /-- Everything enqueued lies below everything that is not. -/
  order : ∀ w ∈ s.history, (∀ q ∈ s.waiting, last w < q.base) ∧ base w ≤ last w ∧ last w < s.nextOffset
  /-- The writes enqueued so far ascend: those of earlier batches, the batch taken and the queue. -/
  queue : Ascending s.history ∧
    ∃ done, s.history = done ++ (s.wal.worker.current ++ s.wal.pending)
  synced : ∀ batch, s.wal.worker = .synced batch → ∀ w ∈ batch, w ∈ s.wal.files
  callback : ∀ c ∈ s.callbacks, CallbackInv s.wal.files s.nextOffset s.waiting s.history c
  bucket : ∀ r ∈ s.bucket, r ∈ s.registered ∨ r ∈ s.gone ∨
    ∃ w, (w ∈ s.wal.arriving ∨ w ∈ s.history) ∧ w.reservation = r
  released : s.ReleasedDurable

variable {cfg : GroupCommitConfig} {s s' : ProducePartition} {a : Action}

theorem ArrivingInv.cacheAppend (h : ArrivingInv arriving nextId) (record : WalRecord) :
    ArrivingInv (arriving ++ [⟨nextId, record, false⟩]) (nextId + 1) where
  nowait w hw := by
    rcases mem_concat.1 hw with hw | rfl
    · exact h.nowait w hw
    · rfl
  numbered w hw := by
    rcases mem_concat.1 hw with hw | rfl
    · exact Nat.lt_succ_of_lt (h.numbered w hw)
    · exact Nat.lt_succ_self _
  distinct x hx y hy hid := by
    rcases mem_concat.1 hx with hx | rfl
    · rcases mem_concat.1 hy with hy | rfl
      · exact h.distinct x hx y hy hid
      · exact absurd hid (ne_of_lt (h.numbered x hx))
    · rcases mem_concat.1 hy with hy | rfl
      · exact absurd hid.symm (ne_of_lt (h.numbered y hy))
      · rfl

theorem ArrivingInv.mono (h : ArrivingInv arriving nextId) (hsub : ∀ w ∈ arriving', w ∈ arriving) :
    ArrivingInv arriving' nextId where
  nowait w hw := h.nowait w (hsub w hw)
  numbered w hw := h.numbered w (hsub w hw)
  distinct x hx y hy := h.distinct x (hsub x hx) y (hsub y hy)

theorem mem_waiting : q ∈ s.waiting ↔
    q ∈ s.reserved ∨ q ∈ s.registered ∨ ∃ w ∈ s.wal.arriving, w.reservation = q := by
  simp only [waiting, mem_append, List.mem_map]

section
variable (h : PipelineInv s)
include h

theorem pipelineInv_reserve (hn : 0 < n) : PipelineInv (s.reserveOffsets n) := by
  have hmem : ∀ q ∈ (s.reserveOffsets n).waiting,
      q = ⟨s.nextOffset, s.nextOffset + n - 1⟩ ∨ q ∈ s.waiting := by
    intro q hq
    rcases mem_waiting.1 hq with hq | hq
    · rcases mem_concat.1 hq with hq | hq
      · exact .inr (mem_waiting.2 (.inl hq))
      · exact .inl hq
    · exact .inr (mem_waiting.2 (.inr hq))
  have hnext : (s.reserveOffsets n).nextOffset = s.nextOffset + n := rfl
  have habove : ∀ q ∈ s.waiting, ∀ r : Reservation, r.base = s.nextOffset → Apart q r := by
    intro q hq r hr
    have hlt : q.last < r.base := by
      have := (h.range q hq).2
      omega
    exact .inl hlt
  refine { h with range := fun q hq => ?_, apart := fun q hq q' hq' => ?_,
                  order := fun w hw => ⟨fun q hq => ?_, (h.order w hw).2.1, ?_⟩,
                  callback := fun c hc => ?_ }
  · rcases hmem q hq with rfl | hq
    · simp only [hnext]
      omega
    · have := h.range q hq
      omega
  · rcases hmem q hq with rfl | hq
    · rcases hmem q' hq' with rfl | hq'
      · exact .inl rfl
      · exact .inr (habove q' hq' _ rfl).symm
    · rcases hmem q' hq' with rfl | hq'
      · exact .inr (habove q hq _ rfl)
      · exact h.apart q hq q' hq'
  · rcases hmem q hq with rfl | hq
    · exact (h.order w hw).2.2
    · exact (h.order w hw).1 q hq
  · have := (h.order w hw).2.2
    omega
  · obtain ⟨hbelow, hopen, hwritten⟩ := h.callback c hc
    refine ⟨by omega, fun q hq => ?_, hwritten⟩
    rcases hmem q hq with rfl | hq
    · exact hbelow
    · exact hopen q hq

/-- A step that adds no range and leaves the queue and the files keeps the invariant. -/
theorem PipelineInv.ofWaitingSubset (hwaiting : ∀ q ∈ s'.waiting, q ∈ s.waiting) (hnext : s'.nextOffset = s.nextOffset)
    (hhistory : s'.history = s.history) (hfiles : s'.wal.files = s.wal.files)
    (hpending : s'.wal.pending = s.wal.pending) (hworker : s'.wal.worker = s.wal.worker)
    (harriving : ArrivingInv s'.wal.arriving s'.wal.nextId) (hcallbacks : s'.callbacks = s.callbacks)
    (hreleased : s'.released = s.released)
    (hbucket : ∀ r ∈ s'.bucket, r ∈ s'.registered ∨ r ∈ s'.gone ∨
      ∃ w, (w ∈ s'.wal.arriving ∨ w ∈ s'.history) ∧ w.reservation = r) : PipelineInv s' where
  range q hq := hnext ▸ h.range q (hwaiting q hq)
  apart q hq q' hq' := h.apart q (hwaiting q hq) q' (hwaiting q' hq')
  arriving := harriving
  order w hw := by
    rw [hhistory] at hw
    obtain ⟨hopen, hne, hlt⟩ := h.order w hw
    exact ⟨fun q hq => hopen q (hwaiting q hq), hne, hnext ▸ hlt⟩
  queue := by
    rw [hhistory, hworker, hpending]
    exact h.queue
  synced batch hsynced w hw := by
    rw [hworker] at hsynced
    rw [hfiles]
    exact h.synced batch hsynced w hw
  callback c hc := by
    rw [hcallbacks] at hc
    obtain ⟨hbelow, hopen, hwritten⟩ := h.callback c hc
    rw [hfiles, hnext, hhistory]
    exact ⟨hbelow, fun q hq => hopen q (hwaiting q hq), hwritten⟩
  bucket := hbucket
  released := by
    rw [ReleasedDurable, hreleased, hfiles, hhistory]
    exact h.released

theorem pipelineInv_giveUp (r : Reservation) :
    PipelineInv { s with reserved := s.reserved.filter (· ≠ r) } := by
  refine h.ofWaitingSubset (fun q hq => mem_waiting.2 ?_) rfl rfl rfl rfl rfl h.arriving rfl rfl
    h.bucket
  exact (mem_waiting.1 hq).imp_left fun hq => (mem_filter.1 hq).1

theorem pipelineInv_register (hr : r ∈ s.reserved) : PipelineInv (s.register r) := by
  refine h.ofWaitingSubset (fun q hq => mem_waiting.2 ?_) rfl rfl rfl rfl rfl h.arriving rfl rfl
    fun q hq => ?_
  · rcases mem_waiting.1 hq with hq | hq | hq
    · exact .inl (mem_filter.1 hq).1
    · rcases mem_concat.1 hq with hq | rfl
      · exact .inr (.inl hq)
      · exact .inl hr
    · exact .inr (.inr hq)
  · rcases mem_append.1 hq with hq | hq
    · exact (h.bucket q (mem_filter.1 hq).1).imp_left (mem_append_left _)
    · exact .inl (mem_append_right _ hq)

theorem pipelineInv_startAppend (hr : ⟨record.baseOffset, record.lastOffset⟩ ∈ s.registered) :
    PipelineInv (s.startAppend record) := by
  have harriving : ∀ w ∈ (s.startAppend record).wal.arriving,
      w ∈ s.wal.arriving ∨ w.reservation = ⟨record.baseOffset, record.lastOffset⟩ := by
    intro w hw
    rcases mem_concat.1 hw with hw | rfl
    · exact .inl hw
    · exact .inr rfl
  refine h.ofWaitingSubset (fun q hq => mem_waiting.2 ?_) rfl rfl rfl rfl rfl
    (h.arriving.cacheAppend record) rfl rfl fun q hq => ?_
  · rcases mem_waiting.1 hq with hq | hq | ⟨w, hw, rfl⟩
    · exact .inl hq
    · exact .inr (.inl (mem_filter.1 hq).1)
    rcases harriving w hw with hw | hw
    · exact .inr (.inr ⟨w, hw, rfl⟩)
    · exact .inr (.inl (hw ▸ hr))
  · by_cases hq' : q = ⟨record.baseOffset, record.lastOffset⟩
    · refine .inr (.inr ⟨⟨s.wal.nextId, record, false⟩, .inl ?_, hq'.symm⟩)
      exact mem_concat_self
    rcases h.bucket q hq with hq | hq | ⟨w, hw, hw'⟩
    · exact .inl (mem_filter.2 ⟨hq, by simpa using hq'⟩)
    · exact .inr (.inl hq)
    · exact .inr (.inr ⟨w, hw.imp_left (mem_append_left _), hw'⟩)

theorem pipelineInv_appendFails (r : Reservation) :
    PipelineInv { s with registered := s.registered.filter (· ≠ r), gone := s.gone ++ [r] } := by
  refine h.ofWaitingSubset (fun q hq => mem_waiting.2 ?_) rfl rfl rfl rfl rfl h.arriving rfl rfl
    fun q hq => ?_
  · exact (mem_waiting.1 hq).imp_right (·.imp_left fun hq => (mem_filter.1 hq).1)
  · by_cases hq' : q = r
    · exact .inr (.inl (mem_append_right _ (mem_singleton.2 hq')))
    rcases h.bucket q hq with hq | hq | hq
    · exact .inl (mem_filter.2 ⟨hq, by simpa using hq'⟩)
    · exact .inr (.inl (mem_append_left _ hq))
    · exact .inr (.inr hq)

theorem pipelineInv_timeout (r : Reservation) :
    PipelineInv { s with bucket := s.bucket.filter (· ≠ r) } :=
  h.ofWaitingSubset (fun _ hq => hq) rfl rfl rfl rfl rfl h.arriving rfl rfl
    fun q hq => h.bucket q (mem_filter.1 hq).1

theorem PipelineInv.last_lt_of_base_lt (hq : q ∈ s.waiting)
    (hq' : q' ∈ s.waiting) (hlt : q.base < q'.base) : q.last < q'.base := by
  rcases h.apart q hq q' hq' with rfl | hlast | hlast
  · omega
  · exact hlast
  have hlast : q'.last < q.base := hlast
  have hrange := (h.range q' hq').1
  omega

theorem pipelineInv_enqueue (hw : w ∈ s.wal.arriving)
    (hlow : ∀ r ∈ s.reserved ++ s.registered, base w < base r)
    (hfirst : ∀ x ∈ s.wal.arriving, x.id ≠ w.id → base w < base x) :
    PipelineInv { s with wal := s.wal.enqueueWrite cfg w, history := s.history ++ [w] } := by
  have hwal : s.wal.enqueueWrite cfg w =
      { s.wal with
        arriving := s.wal.arriving.filter (·.id ≠ w.id)
        pending := s.wal.pending ++ [w]
        enqueued := s.wal.enqueued ++ [w.id] } := by
    rw [PartitionCommitQueue.enqueueWrite, if_neg (by simp [h.arriving.nowait w hw])]
  rw [hwal]
  have hmine : w.reservation ∈ s.waiting := mem_waiting.2 (.inr (.inr ⟨w, hw, rfl⟩))
  obtain ⟨hne, hnext⟩ := h.range _ hmine
  have hsub : ∀ q, (q ∈ s.reserved ∨ q ∈ s.registered ∨
      ∃ x ∈ s.wal.arriving.filter (·.id ≠ w.id), x.reservation = q) →
      q ∈ s.waiting ∧ base w < q.base := by
    rintro q (hq | hq | ⟨x, hx, rfl⟩)
    · exact ⟨mem_waiting.2 (.inl hq), hlow q (mem_append_left _ hq)⟩
    · exact ⟨mem_waiting.2 (.inr (.inl hq)), hlow q (mem_append_right _ hq)⟩
    · obtain ⟨hx, hid⟩ := mem_filter.1 hx
      exact ⟨mem_waiting.2 (.inr (.inr ⟨x, hx, rfl⟩)), hfirst x hx (by simpa using hid)⟩
  refine { h with range := fun q hq => h.range q (hsub q (mem_waiting.1 hq)).1
                  apart := fun q hq q' hq' =>
                    h.apart q (hsub q (mem_waiting.1 hq)).1 q' (hsub q' (mem_waiting.1 hq')).1
                  arriving := h.arriving.mono fun x hx => (mem_filter.1 hx).1
                  order := fun x hx => ?_, queue := ⟨?_, ?_⟩, callback := fun c hc => ?_
                  bucket := fun r hr => ?_, released := fun r hr => ?_ }
  · rcases mem_concat.1 hx with hx | rfl
    · obtain ⟨hopen, hrange⟩ := h.order x hx
      exact ⟨fun q hq => hopen q (hsub q (mem_waiting.1 hq)).1, hrange⟩
    refine ⟨fun q hq => ?_, hne, hnext⟩
    obtain ⟨hq, hlt⟩ := hsub q (mem_waiting.1 hq)
    exact h.last_lt_of_base_lt hmine hq hlt
  · refine pairwise_concat.2 ⟨h.queue.1, fun x hx => ?_⟩
    exact (h.order x hx).1 _ hmine
  · obtain ⟨done, hdone⟩ := h.queue.2
    exact ⟨done, by rw [hdone, append_assoc, append_assoc]⟩
  · obtain ⟨hbelow, hopen, hwritten⟩ := h.callback c hc
    refine ⟨hbelow, fun q hq => hopen q (hsub q (mem_waiting.1 hq)).1, fun x hx hlo hhi => ?_⟩
    rcases mem_concat.1 hx with hx | rfl
    · exact hwritten x hx hlo hhi
    have hover := hopen _ hmine
    have hlast : last x = x.reservation.last := rfl
    omega
  · rcases h.bucket r hr with hr | hr | ⟨x, hx, rfl⟩
    · exact .inl hr
    · exact .inr (.inl hr)
    refine .inr (.inr ?_)
    rcases hx with hx | hx
    · by_cases hid : x.id = w.id
      · refine ⟨x, .inr (mem_append_right _ (mem_singleton.2 ?_)), rfl⟩
        exact h.arriving.distinct x hx w hw hid
      · exact ⟨x, .inl (mem_filter.2 ⟨hx, by simpa using hid⟩), rfl⟩
    · exact ⟨x, .inr (mem_append_left _ hx), rfl⟩
  · obtain ⟨x, hx, hhist, hres⟩ := h.released r hr
    exact ⟨x, hx, mem_append_left _ hhist, hres⟩

theorem pipelineInv_background {a : PartitionCommitQueue.Action}
    (ha : a.background) {wal : PartitionCommitQueue} (hs : s.wal.step cfg a = some wal) :
    PipelineInv { s with wal := wal } := by
  obtain ⟨⟨harriving, hnextId⟩, hcases⟩ := PartitionCommitQueue.background_cases ha hs
  have hfiles : ∀ w ∈ s.wal.files, w ∈ wal.files := by
    rcases hcases with ⟨hfiles, -⟩ | ⟨-, hfiles, -⟩ | ⟨batch, e, -, -, hfiles, -⟩ | ⟨hfiles, -⟩
    · exact fun w hw => hfiles ▸ hw
    · exact fun w hw => hfiles ▸ hw
    · exact fun w hw => hfiles ▸ mem_append_left _ hw
    · exact fun w hw => hfiles ▸ hw
  have hwaiting : ∀ q ∈ ({ s with wal := wal } : ProducePartition).waiting, q ∈ s.waiting := by
    intro q hq
    rw [mem_waiting] at hq ⊢
    rwa [← harriving]
  obtain ⟨hasc, done, hdone⟩ := h.queue
  refine { h with range := fun q hq => h.range q (hwaiting q hq)
                  apart := fun q hq q' hq' => h.apart q (hwaiting q hq) q' (hwaiting q' hq')
                  arriving := ?_
                  order := fun w hw =>
                    ⟨fun q hq => (h.order w hw).1 q (hwaiting q hq), (h.order w hw).2⟩
                  queue := ⟨hasc, ?_⟩, synced := fun batch hsynced w hw => ?_
                  callback := fun c hc => ?_, bucket := fun r hr => ?_, released := fun r hr => ?_ }
  · rw [harriving, hnextId]
    exact h.arriving
  · rcases hcases with ⟨-, hpending, hworker⟩ | ⟨hidle, -, batch, e, hworker, hpending⟩ |
      ⟨batch, e, hdrained, hworker, -, hpending⟩ | ⟨-, hpending, hworker⟩
    · exact ⟨done, by rw [hdone, hpending, hworker]⟩
    · refine ⟨done, ?_⟩
      rw [hdone, hidle, hworker, hpending]
      rfl
    · refine ⟨done, ?_⟩
      rw [hdone, hdrained, hworker, hpending]
      rfl
    · refine ⟨done ++ s.wal.worker.current, ?_⟩
      rw [hdone, hpending, hworker, append_assoc]
      rfl
  · rcases hcases with ⟨-, -, hworker⟩ | ⟨-, -, batch', e, hworker, -⟩ |
      ⟨batch', e, -, hworker, hfiles', -⟩ | ⟨-, -, hworker⟩
    · exact hfiles w (h.synced batch (hworker.symm.trans hsynced) w hw)
    · cases hworker.symm.trans hsynced
    · cases hworker.symm.trans hsynced
      exact hfiles' ▸ mem_append_right _ hw
    rw [hsynced] at hworker
    have hnil : batch = [] := hworker
    rw [hnil] at hw
    cases hw
  · obtain ⟨hbelow, hopen, hwritten⟩ := h.callback c hc
    exact ⟨hbelow, fun q hq => hopen q (hwaiting q hq),
      fun w hw hlo hhi => hfiles w (hwritten w hw hlo hhi)⟩
  · rcases h.bucket r hr with hr | hr | ⟨w, hw, rfl⟩
    · exact .inl hr
    · exact .inr (.inl hr)
    · exact .inr (.inr ⟨w, hw.imp_left fun hw => harriving ▸ hw, rfl⟩)
  · obtain ⟨w, hw, hhist, hres⟩ := h.released r hr
    exact ⟨w, hfiles w hw, hhist, hres⟩

end

theorem mem_callbackOf (hc : c ∈ callbackOf batch) :
    (∀ w ∈ batch, c.1 ≤ base w) ∧ (∃ w ∈ batch, last w = c.2) ∧ ∃ w ∈ batch, base w = c.1 := by
  rw [callbackOf] at hc
  split at hc
  case h_1 lo hi hmin hmax =>
    cases mem_singleton.1 hc
    obtain ⟨hlomem, hlo⟩ := min?_eq_some_iff.1 hmin
    obtain ⟨v, hv, hbase⟩ := mem_map.1 hlomem
    obtain ⟨w, hw, hlast⟩ := mem_map.1 (max?_mem hmax)
    exact ⟨fun w hw => hlo _ (mem_map_of_mem hw), ⟨w, hw, hlast⟩, ⟨v, hv, hbase⟩⟩
  case h_2 => cases hc

theorem pipelineInv_publish (h : PipelineInv s) (hworker : s.wal.worker = .synced batch) :
    PipelineInv { s with
      wal := s.wal.publishBatch batch
      callbacks := s.callbacks ++ callbackOf batch } := by
  obtain ⟨hasc, done, hdone⟩ := h.queue
  rw [hworker] at hdone
  refine { h with queue := ⟨hasc, done ++ batch, ?_⟩, synced := fun _ hsynced => (nomatch hsynced)
                  callback := fun c hc => ?_ }
  · rw [hdone, append_assoc]
    rfl
  · rcases mem_append.1 hc with hc | hc
    · exact h.callback c hc
    obtain ⟨hlo, ⟨z, hz, hzlast⟩, ⟨v, hv, hvbase⟩⟩ := mem_callbackOf hc
    have hmem : ∀ w ∈ batch, w ∈ s.history := by
      intro w hw
      rw [hdone]
      exact mem_append_right _ (mem_append_left _ hw)
    obtain ⟨hzopen, -, hznext⟩ := h.order z (hmem z hz)
    refine ⟨hzlast ▸ hznext, fun q hq => hzlast ▸ hzopen q hq, fun w hw hwlo hwhi => ?_⟩
    obtain ⟨-, hne, -⟩ := h.order w hw
    rw [hdone, Ascending, pairwise_append] at hasc
    rw [hdone] at hw
    rcases mem_append.1 hw with hw | hw
    · have := hasc.2.2 w hw v (mem_append_left _ hv)
      omega
    rcases mem_append.1 hw with hw | hw
    · exact h.synced batch hworker w hw
    · have := (pairwise_append.1 hasc.2.1).2.2 z hz w hw
      omega

theorem pipelineInv_notify (h : PipelineInv s) (hc : s.callbacks[i]? = some c) :
    PipelineInv { s.notifyBatchCommitted c.1 c.2 with callbacks := s.callbacks.eraseIdx i } := by
  obtain ⟨-, hopen, hwritten⟩ := h.callback c (mem_of_getElem? hc)
  refine { h with callback := fun c' hc' => h.callback c' (mem_of_mem_eraseIdx hc')
                  bucket := fun r hr => h.bucket r (mem_filter.1 hr).1
                  released := fun r hr => ?_ }
  rcases mem_append.1 hr with hr | hr
  · exact h.released r hr
  obtain ⟨hbucket, hr⟩ := mem_filter.1 hr
  obtain ⟨⟨hlo, -, hhi⟩, hgone⟩ := of_decide_eq_true hr
  rcases h.bucket r hbucket with hreg | hgone' | ⟨w, hw, rfl⟩
  · have hq := mem_waiting.2 (.inr (.inl hreg))
    have := hopen r hq
    have := (h.range r hq).1
    omega
  · exact absurd hgone' hgone
  · rcases hw with hw | hw
    · have hq := mem_waiting.2 (.inr (.inr ⟨w, hw, rfl⟩))
      have := hopen _ hq
      have := (h.range _ hq).1
      omega
    · exact ⟨w, hwritten w hw hlo hhi, hw, rfl⟩

theorem pipelineInv_step (h : PipelineInv s) (hok : EnqueuedInOrder s a)
    (hs : step cfg s a = some s') : PipelineInv s' := by
  cases a with
  | reserve count =>
    obtain ⟨hcount, rfl⟩ := of_guard hs
    exact pipelineInv_reserve h hcount
  | giveUp r =>
    obtain ⟨-, rfl⟩ := of_guard hs
    exact pipelineInv_giveUp h r
  | register r =>
    obtain ⟨hr, rfl⟩ := of_guard hs
    exact pipelineInv_register h hr
  | append record =>
    obtain ⟨hr, rfl⟩ := of_guard hs
    exact pipelineInv_startAppend h hr
  | appendFails r =>
    obtain ⟨-, rfl⟩ := of_guard hs
    exact pipelineInv_appendFails h r
  | enqueue id =>
    obtain ⟨w, hw, hs⟩ := bind_eq_some_iff.1 hs
    obtain ⟨wal, hwal, rfl⟩ := map_eq_some_iff.1 hs
    simp only [PartitionCommitQueue.step, hw, map_some] at hwal
    split at hwal <;> cases hwal
    obtain ⟨hlow, hfirst⟩ := hok w hw
    exact pipelineInv_enqueue h (mem_of_find?_eq_some hw) hlow hfirst
  | wal a =>
    obtain ⟨ha, hs⟩ := ite_none_right_eq_some.1 hs
    obtain ⟨wal, hwal, rfl⟩ := map_eq_some_iff.1 hs
    exact pipelineInv_background h ha hwal
  | publish =>
    obtain ⟨wal, hwal, rfl⟩ := map_eq_some_iff.1 hs
    simp only [PartitionCommitQueue.step] at hwal
    split at hwal <;> cases hwal
    rename_i batch hworker
    rw [hworker]
    exact pipelineInv_publish h hworker
  | notify callback =>
    obtain ⟨c, hc, rfl⟩ := map_eq_some_iff.1 hs
    exact pipelineInv_notify h hc
  | timeout r =>
    obtain ⟨-, rfl⟩ := of_guard hs
    exact pipelineInv_timeout h r

/-- Where appends are enqueued in offset order, success means that the own batch is written and
synced. -/
theorem releasedDurable_of_enqueuedInOrder {disk : List (List WalRecord)} {start : Int}
    (h : Reaches (producePath cfg disk start) EnqueuedInOrder s) : s.ReleasedDurable := by
  have hinv : PipelineInv s := by
    refine h.invariant ?_ fun s a s' hs hok hstep => pipelineInv_step hs hok hstep
    exact
      { range := fun _ hq => (nomatch hq)
        apart := fun _ hq => (nomatch hq)
        arriving := ⟨fun _ hw => (nomatch hw), fun _ hw => (nomatch hw), fun _ hw => (nomatch hw)⟩
        order := fun _ hw => (nomatch hw)
        queue := ⟨.nil, [], rfl⟩
        synced := fun _ hw => (nomatch hw)
        callback := fun _ hc => (nomatch hc)
        bucket := fun _ hr => (nomatch hr)
        released := fun _ hr => (nomatch hr) }
  exact hinv.released

end ProducePartition

/-! ## Three concurrent requests -/

section
open GroupCommitFixture ProducePartition

/-- The first and the third of three requests are committed together, the callback reports 0 to 29,
and the second is answered before its batch has reached the queue. -/
theorem request_released_before_enqueue :
    ¬ ∀ (cfg : GroupCommitConfig) (disk : List (List WalRecord)) (start : Int)
      (s : ProducePartition), Reaches (producePath cfg disk start) Always s → s.ReleasedDurable := by
  intro h
  obtain ⟨s, hs, hbad⟩ := exists_reaches_of_run (producePath config [] 0) Always
    [.reserve 10, .reserve 10, .reserve 10, .register ⟨0, 9⟩, .register ⟨10, 19⟩,
      .register ⟨20, 29⟩, .append (batch 0 9), .append (batch 20 29), .enqueue 1, .enqueue 2,
      .wal .drain, .wal .write, .publish, .notify 0]
    (fun s => ¬ s.ReleasedDurable) (by decide)
  exact hbad (h config [] 0 s hs)

/-- The same requests enqueued in order, committed in one batch and answered. -/
theorem releasedDurable_after_ordered_enqueues :
    ∃ s, Reaches (producePath config [] 0) EnqueuedInOrder s ∧
      s.released = [⟨0, 9⟩, ⟨10, 19⟩] ∧ s.ReleasedDurable :=
  exists_reaches_and (producePath config [] 0) EnqueuedInOrder
    [.reserve 10, .reserve 10, .reserve 10, .register ⟨0, 9⟩, .register ⟨10, 19⟩,
      .register ⟨20, 29⟩, .append (batch 0 9), .append (batch 10 19), .append (batch 20 29),
      .enqueue 1, .enqueue 2, .wal .drain, .enqueue 3, .wal .write, .publish, .notify 0]
    (by decide) fun _ hs => releasedDurable_of_enqueuedInOrder hs

end

end ChronikStream
