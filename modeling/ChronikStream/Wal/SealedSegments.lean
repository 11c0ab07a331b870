import ChronikStream.Lib.OrderedMap
import ChronikStream.Lib.Run

/-!
# Sealed segments

The indexer does not come back for a recorded segment as long as its recorded size is the same, so a
recorded file must not grow and its size must be right. Two queues on one file, a failed creation of
the next file, a failed write and bytes counted after the lock was released stand against it
(`sealed_segment_changes`). Without these (`SealsCleanly`) both hold (`sealed_segment_unchanged`).
`sealedAs` is ghost state.
-/

namespace ChronikStream

open Machine List Option OrderedMap

structure RotationConfig where
  maxBatchSize : Nat
  rotationSizeBytes : Nat
  enableRotation : Bool
  /-- Topics starting with `__` are not looked through at startup. -/
  internalTopic : Bool

inductive SegmentWorker where
  | idle
  | drained (batch : List (List UInt8))
  /-- It has released the file lock, and has not counted the bytes yet. -/
  | written (totalBytes : Nat)
  | counted
  /-- It has found the segment large or old, and waits for the file lock. -/
  | sealing

/-- A queue, with the segment that its writer appends to. -/
structure SegmentQueue where
  segmentId : Nat
  segmentSizeBytes : Nat
  pending : List (List UInt8)
  worker : SegmentWorker

/-- The bytes of a commit that are in the file and not in the counter. -/
def SegmentQueue.uncounted (q : SegmentQueue) : Nat :=
  match q.worker with
  | .written totalBytes => totalBytes
  | _ => 0

/-- Where a call of `get_or_create_queue` is that has found no queue. -/
inductive QueueCreator where
  | scanning
  | scanned (nextSegmentId : Nat)
  | opened (segmentId : Nat)

inductive SealOutcome where
  | syncFails
  | rotateFails
  | rotated
  deriving DecidableEq

/-- A queue that was replaced in the map still has its worker. `stale` are to be sealed as idle. -/
structure SegmentWal where
  files : OrderedMap Nat (List UInt8)
  queues : List SegmentQueue
  current : Option Nat
  creators : List QueueCreator
  stale : List Nat
  sealed : Nat → Option Nat
  sealedAs : Nat → Option (List UInt8)

namespace SegmentWal

open SegmentQueue (uncounted)

inductive Action where
  | lookUp
  | scan (i : Nat)
  | open_ (i : Nat) (ok : Bool)
  | insert (i : Nat)
  | enqueue (k : Nat) (data : List UInt8)
  | drain (k : Nat)
  | write (k : Nat)
  /-- The write or the sync fails, and `kept` bytes are in the file. -/
  | writeFails (k kept : Nat)
  | count (k : Nat)
  | check (k : Nat) (aged : Bool)
  | sealActive (k : Nat) (outcome : SealOutcome)
  | findStale
  | sealStale (i : Nat) (outcome : SealOutcome)

section
variable (s : SegmentWal)

def content (id : Nat) : List UInt8 := (s.files.get? id).getD []

def setQueue (k : Nat) (q : SegmentQueue) : SegmentWal :=
  { s with queues := s.queues.set k q }

def nextSegmentId : Nat := s.files.entries.foldl (fun next e => max next (e.1 + 1)) 0

/-- `WalWriter::create`: the file is opened for appending, and created if it is not there. -/
def openFile (id : Nat) : SegmentWal :=
  { s with files := s.files.upsert id (·.getD []) }

def appendBytes (id : Nat) (bytes : List UInt8) : SegmentWal :=
  { s with files := s.files.upsert id (·.getD [] ++ bytes) }

/-- The segment is put into `sealed_segments`. -/
def record (id size : Nat) : SegmentWal :=
  { s with
    sealed := Function.update s.sealed id (some size)
    sealedAs := Function.update s.sealedAs id (some ((s.sealedAs id).getD (s.content id))) }

def rotateToNewSegment (k : Nat) (q : SegmentQueue) : SegmentWal :=
  (s.openFile (q.segmentId + 1)).setQueue k
    { q with segmentId := q.segmentId + 1, segmentSizeBytes := 0 }

/-- The section of `check_and_seal_segment` under the file lock: the size is that of the counter. -/
def sealSegment (k : Nat) (q : SegmentQueue) (outcome : SealOutcome) : SegmentWal :=
  let q := { q with worker := .idle }
  match outcome with
  | .syncFails => s.setQueue k q
  | .rotateFails => (s.record q.segmentId q.segmentSizeBytes).setQueue k q
  | .rotated => (s.record q.segmentId q.segmentSizeBytes).rotateToNewSegment k q

/-- `force_seal_segment`: the size is that of the file, and an empty file is not sealed. -/
def forceSealSegment (k : Nat) (q : SegmentQueue) (outcome : SealOutcome) : SegmentWal :=
  let fileSize := (s.content q.segmentId).length
  match outcome with
  | .syncFails => s
  | .rotateFails => if fileSize = 0 then s else s.record q.segmentId fileSize
  | .rotated => if fileSize = 0 then s else (s.record q.segmentId fileSize).rotateToNewSegment k q

def step (c : RotationConfig) (s : SegmentWal) : Action → Option SegmentWal
  | .lookUp => if s.current = none then some { s with creators := s.creators ++ [.scanning] } else none
  | .scan i =>
    match s.creators[i]? with
    | some .scanning => some { s with creators := s.creators.set i (.scanned s.nextSegmentId) }
    | _ => none
  | .open_ i ok =>
    match s.creators[i]? with
    | some (.scanned id) =>
      if ok then some { s.openFile id with creators := s.creators.set i (.opened id) }
      else some { s with creators := s.creators.eraseIdx i }
    | _ => none
  | .insert i =>
    match s.creators[i]? with
    | some (.opened id) => some { s with
        queues := s.queues ++ [⟨id, 0, [], .idle⟩]
        current := some s.queues.length
        creators := s.creators.eraseIdx i }
    | _ => none
  | .enqueue k data => s.queues[k]?.map fun q => s.setQueue k { q with pending := q.pending ++ [data] }
  | .drain k =>
    s.queues[k]?.bind fun q =>
      match q.worker with
      | .idle =>
        if q.pending = [] then none
        else some (s.setQueue k { q with
          pending := q.pending.drop c.maxBatchSize
          worker := .drained (q.pending.take c.maxBatchSize) })
      | _ => none
  | .write k =>
    s.queues[k]?.bind fun q =>
      match q.worker with
      | .drained batch => some ((s.appendBytes q.segmentId batch.flatten).setQueue k
          { q with worker := .written batch.flatten.length })
      | _ => none
  | .writeFails k kept =>
    s.queues[k]?.bind fun q =>
      match q.worker with
      | .drained batch => some ((s.appendBytes q.segmentId (batch.flatten.take kept)).setQueue k
          { q with worker := .idle })
      | _ => none
  | .count k =>
    s.queues[k]?.bind fun q =>
      match q.worker with
      | .written totalBytes => some (s.setQueue k
          { q with segmentSizeBytes := q.segmentSizeBytes + totalBytes, worker := .counted })
      | _ => none
  | .check k aged =>
    s.queues[k]?.bind fun q =>
      match q.worker with
      | .counted =>
        let shouldSeal := c.enableRotation ∧ (c.rotationSizeBytes ≤ q.segmentSizeBytes ∨ aged)
        some (s.setQueue k { q with worker := if shouldSeal then .sealing else .idle })
      | _ => none
  | .sealActive k outcome =>
    s.queues[k]?.bind fun q =>
      match q.worker with
      | .sealing => some (s.sealSegment k q outcome)
      | _ => none
  | .findStale =>
    s.current.bind fun k =>
      s.queues[k]?.bind fun q =>
        if 0 < q.segmentSizeBytes then some { s with stale := s.stale ++ [k] } else none
  | .sealStale i outcome =>
    s.stale[i]?.bind fun k =>
      s.queues[k]?.map fun q => { s with stale := s.stale.eraseIdx i }.forceSealSegment k q outcome

/-- What `discover_sealed_segments` records of a file that is there at startup. -/
def discovered (c : RotationConfig) (disk : OrderedMap Nat (List UInt8)) (id : Nat) : Option Nat :=
  if c.enableRotation ∧ ¬ c.internalTopic then
    (disk.get? id).bind fun file =>
      if 0 < id ∨ c.rotationSizeBytes ≤ file.length ∨ 0 < file.length then some file.length else none
  else none

def machine (c : RotationConfig) (disk : OrderedMap Nat (List UInt8)) : Machine SegmentWal Action where
  init := ⟨disk, [], none, [], [], discovered c disk,
    fun id => (discovered c disk id).bind fun _ => disk.get? id⟩
  step := step c

/-- A recorded segment has the content it had when it was recorded, and the recorded size is its
length. -/
def SealedUnchanged : Prop :=
  ∀ id size, s.sealed id = some size →
    ∃ file, s.files.get? id = some file ∧ s.sealedAs id = some file ∧ size = file.length

/-- A queue is inserted where there is none; a failed write leaves nothing; a recorded segment is
rotated; no idle seal comes between a write and its count. -/
def SealsCleanly : Action → Prop
  | .insert _ => s.queues.length = 0
  | .writeFails _ kept => kept = 0
  | .sealActive _ outcome => outcome ≠ .rotateFails
  | .sealStale i outcome => outcome ≠ .rotateFails ∧
      ∀ k ∈ s.stale[i]?, ∀ q ∈ s.queues[k]?, q.uncounted = 0
  | _ => True

end

instance : DecidableRel SealsCleanly := fun _ _ => by
  unfold SealsCleanly
  split <;> infer_instance

/-! ## Files -/

variable {s : SegmentWal} {id : Nat} {q : SegmentQueue} {bytes : List UInt8}

theorem get?_openFile :
    (s.openFile id).files.get? j = if j = id then some (s.content id) else s.files.get? j := by
  by_cases h : j = id
  · subst h
    rw [if_pos rfl]
    exact get?_upsert_self
  · rw [if_neg h]
    exact get?_upsert_of_ne h

theorem content_openFile : (s.openFile id).content j = s.content j := by
  rw [content, get?_openFile]
  split
  case isTrue heq => rw [heq, getD_some]
  case isFalse => rfl

theorem get?_openFile_of_some (h : s.files.get? j = some file) :
    (s.openFile id).files.get? j = some file := by
  rw [get?_openFile]
  split
  case isTrue heq => rw [← heq, content, h, getD_some]
  case isFalse => exact h

theorem get?_appendBytes : (s.appendBytes id bytes).files.get? j =
    if j = id then some (s.content id ++ bytes) else s.files.get? j := by
  by_cases h : j = id
  · subst h
    rw [if_pos rfl]
    exact get?_upsert_self
  · rw [if_neg h]
    exact get?_upsert_of_ne h

theorem get?_of_nextSegmentId_le (h : s.nextSegmentId ≤ id) : s.files.get? id = none := by
  have hfold : ∀ (l : List (Nat × List UInt8)) (start : Nat),
      start ≤ l.foldl (fun next e => max next (e.1 + 1)) start ∧
        ∀ e ∈ l, e.1 < l.foldl (fun next e => max next (e.1 + 1)) start := by
    intro l
    induction l with
    | nil => exact fun start => ⟨le_refl _, forall_mem_nil _⟩
    | cons e l ih =>
      intro start
      obtain ⟨hstart, hrest⟩ := ih (max start (e.1 + 1))
      rw [foldl_cons]
      refine ⟨by omega, ?_⟩
      intro e' he'
      rcases mem_cons.1 he' with rfl | he'
      · omega
      · exact hrest e' he'
  rw [eq_none_iff_forall_ne_some]
  intro file hfile
  have hlt := (hfold s.files.entries 0).2 _ (get?_eq_some_iff.1 hfile)
  rw [nextSegmentId] at h
  omega

/-! ## The invariant -/

/-- From this segment on nothing is recorded and nothing written. -/
def FreeFrom (s : SegmentWal) (n : Nat) : Prop := ∀ id, n ≤ id → s.sealed id = none ∧ s.content id = []

/-- The queue is at an unrecorded segment with empty files after it, and its bytes are counted or to
be. -/
structure QueueOk (s : SegmentWal) (q : SegmentQueue) : Prop where
  unsealed : ∀ id, q.segmentId ≤ id → s.sealed id = none
  empty : ∀ id, q.segmentId < id → s.content id = []
  active : ∃ file, s.files.get? q.segmentId = some file ∧
    file.length = q.segmentSizeBytes + q.uncounted

def CreatorOk (s : SegmentWal) : QueueCreator → Prop
  | .scanning => True
  | .scanned n => s.FreeFrom n
  | .opened n => s.FreeFrom n ∧ s.files.get? n = some []

structure Inv (s : SegmentWal) : Prop where
  recorded : s.SealedUnchanged
  unrecorded : ∀ id, s.sealed id = none → s.sealedAs id = none
  one : s.queues.length ≤ 1
  queue : ∀ q ∈ s.queues, s.QueueOk q
  creators : s.queues = [] → ∀ c ∈ s.creators, s.CreatorOk c

theorem set_ne_nil (hq : s.queues[k]? = some q) : s.queues.set k q' ≠ [] := by
  intro hnil
  rw [(set_eq_nil_iff _ _).1 hnil] at hq
  cases hq

theorem Inv.eq_of_mem_set (h : s.Inv) (hq : s.queues[k]? = some q)
    (hr : r ∈ s.queues.set k q') : r = q' := by
  obtain ⟨hk, -⟩ := List.getElem?_eq_some_iff.1 hq
  have hone := h.one
  have hlen : (s.queues.set k q').length = 1 := by
    rw [length_set]
    omega
  obtain ⟨i, hi, rfl⟩ := mem_iff_getElem.1 hr
  obtain rfl : k = i := by omega
  exact getElem_set_self _

/-- A step that changes neither a file nor what is recorded. -/
theorem Inv.setQueue (h : s.Inv) (hq : s.queues[k]? = some q) (hok : s.QueueOk q') :
    (s.setQueue k q').Inv where
  __ := h
  one := by
    rw [SegmentWal.setQueue, length_set]
    exact h.one
  queue := by
    intro r hr
    obtain rfl := h.eq_of_mem_set hq hr
    exact ⟨hok.unsealed, hok.empty, hok.active⟩
  creators := fun hnil => absurd hnil (set_ne_nil hq)

theorem QueueOk.of_eq (h : s.QueueOk q) (hid : q'.segmentId = q.segmentId)
    (hbytes : q'.segmentSizeBytes + q'.uncounted = q.segmentSizeBytes + q.uncounted) : s.QueueOk q' := by
  constructor
  case unsealed =>
    rw [hid]
    exact h.unsealed
  case empty =>
    rw [hid]
    exact h.empty
  case active =>
    rw [hid, hbytes]
    exact h.active

theorem Inv.appendBytes (h : s.Inv) (hq : s.queues[k]? = some q) (hid : q'.segmentId = q.segmentId)
    (hbytes : q'.segmentSizeBytes + q'.uncounted = q.segmentSizeBytes + q.uncounted + bytes.length) :
    ((s.appendBytes q.segmentId bytes).setQueue k q').Inv := by
  have hok := h.queue q (mem_of_getElem? hq)
  constructor
  case recorded =>
    intro id size hsealed
    obtain ⟨file, hfile, has, hsize⟩ := h.recorded id size hsealed
    refine ⟨file, ?_, has, hsize⟩
    have hne : id ≠ q.segmentId := by
      rintro rfl
      cases (hok.unsealed _ (le_refl _)).symm.trans hsealed
    exact get?_appendBytes.trans ((if_neg hne).trans hfile)
  case unrecorded => exact h.unrecorded
  case one =>
    rw [SegmentWal.setQueue, length_set]
    exact h.one
  case queue =>
    intro r hr
    obtain rfl := h.eq_of_mem_set hq hr
    constructor
    case unsealed =>
      rw [hid]
      exact hok.unsealed
    case empty =>
      intro id hlt
      rw [hid] at hlt
      have hcontent : (s.appendBytes q.segmentId bytes).content id = s.content id := by
        rw [content, get?_appendBytes, if_neg (by omega), content]
      exact hcontent.trans (hok.empty id hlt)
    case active =>
      obtain ⟨file, hfile, hlen⟩ := hok.active
      refine ⟨file ++ bytes, ?_, ?_⟩
      · rw [hid]
        refine get?_appendBytes.trans ?_
        rw [if_pos rfl, content, hfile, getD_some]
      · rw [hbytes, length_append, hlen]
  case creators => exact fun hnil => absurd hnil (set_ne_nil hq)

theorem sealed_record : (s.record id size).sealed j = if j = id then some size else s.sealed j :=
  Function.update_apply s.sealed id (some size) j

theorem sealedAs_record : (s.record id size).sealedAs j =
    if j = id then some ((s.sealedAs id).getD (s.content id)) else s.sealedAs j :=
  Function.update_apply s.sealedAs id _ j

/-- A segment that is recorded for the first time, with its length, is as it was when it was
recorded. -/
theorem SealedUnchanged.record (h : s.SealedUnchanged)
    (hfile : s.files.get? id = some file) (has : s.sealedAs id = none) :
    (s.record id file.length).SealedUnchanged := by
  intro j size hsealed
  rw [sealed_record] at hsealed
  rw [sealedAs_record]
  split at hsealed
  case isTrue heq =>
    cases hsealed
    subst heq
    refine ⟨file, hfile, ?_, rfl⟩
    rw [if_pos rfl, has, getD_none, content, hfile, getD_some]
  case isFalse hne =>
    rw [if_neg hne]
    exact h j size hsealed

/-- Opening a file changes no recorded one: it is opened for appending. -/
theorem SealedUnchanged.openFile (h : s.SealedUnchanged) : (s.openFile id).SealedUnchanged := by
  intro j size hsealed
  obtain ⟨file, hfile, has, hsize⟩ := h j size hsealed
  exact ⟨file, get?_openFile_of_some hfile, has, hsize⟩

/-- The segment is recorded with its length, and the queue goes on with the next one. -/
theorem Inv.rotated (h : s.Inv) (hq : s.queues[k]? = some q) (hok : s.QueueOk q')
    (hcounted : q'.uncounted = 0) (hsize : size = (s.content q'.segmentId).length) :
    ((s.record q'.segmentId size).rotateToNewSegment k q').Inv := by
  obtain ⟨file, hfile, -⟩ := hok.active
  rw [content, hfile] at hsize
  subst hsize
  have has := h.unrecorded _ (hok.unsealed _ (le_refl _))
  have hlater : ∀ id, q'.segmentId < id → (s.record q'.segmentId file.length).sealed id = none := by
    intro id hlt
    rw [sealed_record, if_neg (by omega), hok.unsealed id (by omega)]
  constructor
  case recorded => exact (h.recorded.record hfile has).openFile
  case unrecorded =>
    intro id hsealed
    have hsealed : (s.record q'.segmentId file.length).sealed id = none := hsealed
    have hrecorded : (s.record q'.segmentId file.length).sealedAs id = none := by
      rw [sealed_record] at hsealed
      rw [sealedAs_record]
      split at hsealed
      case isTrue => cases hsealed
      case isFalse hne => rw [if_neg hne, h.unrecorded id hsealed]
    exact hrecorded
  case one =>
    rw [rotateToNewSegment, SegmentWal.setQueue, length_set]
    exact h.one
  case queue =>
    intro r hr
    obtain rfl := h.eq_of_mem_set hq hr
    constructor
    case unsealed => exact fun id hle => hlater id hle
    case empty =>
      intro id hlt
      have hlt : q'.segmentId + 1 < id := hlt
      exact content_openFile.trans (hok.empty id (by omega))
    case active =>
      refine ⟨[], ?_, ((Nat.zero_add _).trans hcounted).symm⟩
      refine get?_openFile.trans ?_
      rw [if_pos rfl]
      exact congrArg some (hok.empty _ (by omega))
  case creators => exact fun hnil => absurd hnil (set_ne_nil hq)

/-! ## The run -/

/-- A creator that opens its file, or gives up, leaves the others as they were. -/
theorem CreatorOk.of_files {s' : SegmentWal} (h : s.CreatorOk c)
    (hsealed : s'.sealed = s.sealed) (hcontent : ∀ id, s'.content id = s.content id)
    (hfiles : ∀ id, s.files.get? id = some [] → s'.files.get? id = some []) : s'.CreatorOk c := by
  have hfree : ∀ {n}, s.FreeFrom n → s'.FreeFrom n := by
    intro n hn id hle
    rw [hsealed, hcontent]
    exact hn id hle
  cases c with
  | scanning => trivial
  | scanned n => exact hfree h
  | opened n => exact ⟨hfree h.1, hfiles n h.2⟩

theorem Inv.init (c : RotationConfig) (disk : OrderedMap Nat (List UInt8)) : (machine c disk).init.Inv where
  recorded := by
    intro id size hsealed
    have hsealed : discovered c disk id = some size := hsealed
    have hfile : ∃ file, disk.get? id = some file ∧ size = file.length := by
      rw [discovered, ite_none_right_eq_some, bind_eq_some_iff] at hsealed
      obtain ⟨-, file, hfile, hsize⟩ := hsealed
      rw [ite_none_right_eq_some] at hsize
      exact ⟨file, hfile, (some.inj hsize.2).symm⟩
    obtain ⟨file, hfile, hsize⟩ := hfile
    refine ⟨file, hfile, ?_, hsize⟩
    have has : ((discovered c disk id).bind fun _ => disk.get? id) = some file := by
      rw [hsealed, bind_some, hfile]
    exact has
  unrecorded := by
    intro id hsealed
    have hsealed : discovered c disk id = none := hsealed
    have has : ((discovered c disk id).bind fun _ => disk.get? id) = none := by
      rw [hsealed, bind_none]
    exact has
  one := Nat.zero_le 1
  queue := forall_mem_nil _
  creators := fun _ _ hc => absurd hc not_mem_nil

section
variable (h : s.Inv)
include h

theorem Inv.freeFrom_nextSegmentId : s.FreeFrom s.nextSegmentId := by
  intro id hle
  have hnone := get?_of_nextSegmentId_le hle
  constructor
  · rw [eq_none_iff_forall_ne_some]
    intro size hsealed
    obtain ⟨file, hfile, -⟩ := h.recorded id size hsealed
    cases hnone.symm.trans hfile
  · rw [content, hnone, getD_none]

theorem Inv.withCreators {creators : List QueueCreator} {stale : List Nat}
    (hc : s.queues = [] → ∀ c ∈ creators, s.CreatorOk c) :
    Inv { s with creators := creators, stale := stale } where
  __ := h
  queue := fun q hq => ⟨(h.queue q hq).unsealed, (h.queue q hq).empty, (h.queue q hq).active⟩
  creators := by
    intro hnil c hmem
    exact (hc hnil c hmem).of_files rfl (fun _ => rfl) (fun _ hfile => hfile)

theorem Inv.openFile : (s.openFile id).Inv where
  __ := h
  recorded := h.recorded.openFile
  queue := by
    intro q hq
    obtain ⟨hunsealed, hempty, file, hfile, hlen⟩ := h.queue q hq
    exact ⟨hunsealed, fun j hlt => content_openFile.trans (hempty j hlt), file, get?_openFile_of_some hfile, hlen⟩
  creators := by
    intro hnil c hmem
    exact (h.creators hnil c hmem).of_files rfl (fun _ => content_openFile) (fun _ => get?_openFile_of_some)

theorem Inv.opened {i : Nat} (hi : s.creators[i]? = some (.scanned id)) :
    Inv { s.openFile id with creators := s.creators.set i (.opened id) } := by
  apply h.openFile.withCreators
  intro hnil c hmem
  rcases mem_or_eq_of_mem_set hmem with hold | rfl
  · exact h.openFile.creators hnil c hold
  have hfree : (s.openFile id).FreeFrom id := h.openFile.creators hnil _ (mem_of_getElem? hi)
  refine ⟨hfree, ?_⟩
  have hempty : s.content id = [] := content_openFile.symm.trans (hfree id (le_refl _)).2
  rw [get?_openFile, if_pos rfl, hempty]

theorem Inv.inserted (hi : s.creators[i]? = some (.opened id)) (hempty : s.queues.length = 0) :
    Inv { s with
      queues := s.queues ++ [⟨id, 0, [], .idle⟩]
      current := some s.queues.length
      creators := s.creators.eraseIdx i } := by
  have hnil := length_eq_zero_iff.1 hempty
  obtain ⟨hfree, hfile⟩ : s.CreatorOk (.opened id) := h.creators hnil _ (mem_of_getElem? hi)
  constructor
  case recorded => exact h.recorded
  case unrecorded => exact h.unrecorded
  case one =>
    rw [hnil]
    exact le_refl 1
  case queue =>
    intro r hr
    rw [hnil] at hr
    obtain rfl := mem_singleton.1 hr
    exact ⟨fun id hle => (hfree id hle).1, fun id hlt => (hfree id (le_of_lt hlt)).2, [], hfile, rfl⟩
  case creators => exact fun habs => absurd habs (append_ne_nil_of_right_ne_nil _ (cons_ne_nil _ _))

/-- A worker moves on without a change to the file: what it has written stays to be counted, or is
counted. -/
theorem Inv.moved (hq : s.queues[k]? = some q) (hid : q'.segmentId = q.segmentId)
    (hbytes : q'.segmentSizeBytes + q'.uncounted = q.segmentSizeBytes + q.uncounted) : (s.setQueue k q').Inv :=
  h.setQueue hq ((h.queue q (mem_of_getElem? hq)).of_eq hid hbytes)

theorem Inv.sealSegment (hq : s.queues[k]? = some q) (hw : q.worker = .sealing)
    (hclean : outcome ≠ .rotateFails) : (s.sealSegment k q outcome).Inv := by
  have huncounted : q.uncounted = 0 := by rw [uncounted, hw]
  have hok : s.QueueOk { q with worker := .idle } :=
    (h.queue q (mem_of_getElem? hq)).of_eq rfl (by rw [huncounted]; rfl)
  cases outcome with
  | syncFails => exact h.setQueue hq hok
  | rotateFails => exact absurd rfl hclean
  | rotated =>
  apply h.rotated hq hok rfl
  obtain ⟨file, hfile, hlen⟩ := hok.active
  rw [content, hfile, getD_some, hlen]
  rfl

theorem Inv.forceSealSegment (hq : s.queues[k]? = some q) (hcounted : q.uncounted = 0)
    (hclean : outcome ≠ .rotateFails) : (s.forceSealSegment k q outcome).Inv := by
  rw [SegmentWal.forceSealSegment.eq_def]
  cases outcome with
  | syncFails => exact h
  | rotateFails => exact absurd rfl hclean
  | rotated =>
  dsimp only
  split
  case isTrue => exact h
  case isFalse => exact h.rotated hq (h.queue q (mem_of_getElem? hq)) hcounted rfl

end

theorem uncounted_eq_zero (hw : ∀ n, q.worker ≠ .written n) : q.uncounted = 0 := by
  rw [uncounted]
  split
  case h_1 n heq => exact absurd heq (hw n)
  case h_2 => rfl

theorem Inv.step {c : RotationConfig} (h : s.Inv) (hclean : SealsCleanly s a)
    (hs : step c s a = some s') : s'.Inv := by
  cases a with simp only [SegmentWal.step] at hs
  | lookUp =>
    obtain ⟨-, rfl⟩ := of_guard hs
    apply h.withCreators
    intro hnil creator hmem
    rcases mem_concat.1 hmem with hold | rfl
    · exact h.creators hnil creator hold
    · trivial
  | scan i =>
    split at hs <;> cases hs
    rename_i hi
    apply h.withCreators
    intro hnil creator hmem
    rcases mem_or_eq_of_mem_set hmem with hold | rfl
    · exact h.creators hnil creator hold
    · exact h.freeFrom_nextSegmentId
  | open_ i ok =>
    split at hs
    case h_2 => cases hs
    case h_1 id hi =>
    cases ok with
    | true =>
      cases hs
      exact h.opened hi
    | false =>
      cases hs
      exact h.withCreators fun hnil creator hmem => h.creators hnil creator (mem_of_mem_eraseIdx hmem)
  | insert i =>
    split at hs <;> cases hs
    rename_i id hi
    exact h.inserted hi hclean
  | enqueue k data =>
    obtain ⟨q, hq, rfl⟩ := map_eq_some_iff.1 hs
    exact h.moved hq rfl rfl
  | drain k =>
    obtain ⟨q, hq, hs⟩ := bind_eq_some_iff.1 hs
    split at hs
    case h_2 => cases hs
    case h_1 hw =>
    obtain ⟨-, rfl⟩ := of_not_guard hs
    have hzero : q.uncounted = 0 := by rw [uncounted, hw]
    exact h.moved hq rfl (by rw [hzero]; rfl)
  | write k =>
    obtain ⟨q, hq, hs⟩ := bind_eq_some_iff.1 hs
    split at hs <;> cases hs
    rename_i batch hw
    have hzero : q.uncounted = 0 := by rw [uncounted, hw]
    exact h.appendBytes hq rfl (by rw [hzero]; rfl)
  | writeFails k kept =>
    obtain ⟨q, hq, hs⟩ := bind_eq_some_iff.1 hs
    split at hs <;> cases hs
    rename_i batch hw
    obtain rfl : kept = 0 := hclean
    have hzero : q.uncounted = 0 := by rw [uncounted, hw]
    exact h.appendBytes hq rfl (by rw [hzero]; rfl)
  | count k =>
    obtain ⟨q, hq, hs⟩ := bind_eq_some_iff.1 hs
    split at hs <;> cases hs
    rename_i totalBytes hw
    have htotal : q.uncounted = totalBytes := by rw [uncounted, hw]
    exact h.moved hq rfl (by rw [htotal]; rfl)
  | check k aged =>
    obtain ⟨q, hq, hs⟩ := bind_eq_some_iff.1 hs
    split at hs <;> cases hs
    rename_i hw
    have hzero : q.uncounted = 0 := by rw [uncounted, hw]
    refine h.moved hq rfl ?_
    rw [hzero, uncounted_eq_zero]
    intro n
    split <;> exact SegmentWorker.noConfusion
  | sealActive k outcome =>
    obtain ⟨q, hq, hs⟩ := bind_eq_some_iff.1 hs
    split at hs <;> cases hs
    rename_i hw
    exact h.sealSegment hq hw hclean
  | findStale =>
    obtain ⟨k, -, hs⟩ := bind_eq_some_iff.1 hs
    obtain ⟨q, -, hs⟩ := bind_eq_some_iff.1 hs
    obtain ⟨-, rfl⟩ := of_guard hs
    exact h.withCreators h.creators
  | sealStale i outcome =>
    obtain ⟨k, hk, hs⟩ := bind_eq_some_iff.1 hs
    obtain ⟨q, hq, rfl⟩ := map_eq_some_iff.1 hs
    have hmarked : Inv { s with stale := s.stale.eraseIdx i } := h.withCreators h.creators
    exact hmarked.forceSealSegment hq (hclean.2 k hk q hq) hclean.1

/-- Sealed cleanly, a recorded segment has the content it had then, and the recorded size is its
length. -/
theorem sealed_segment_unchanged (c : RotationConfig) (disk : OrderedMap Nat (List UInt8))
    (h : Reaches (machine c disk) SealsCleanly s) : s.SealedUnchanged :=
  (h.invariant (I := Inv) (Inv.init c disk) fun _ _ _ hs hclean hstep => hs.step hclean hstep).recorded

/-- One segment is sealed for its size and the next one for being idle, and appends go on. -/
theorem sealed_segment_unchanged_rotated : ∃ s,
    Reaches (machine ⟨10, 2, true, false⟩ .empty) SealsCleanly s ∧ s.SealedUnchanged ∧
      s.sealed 0 = some 2 ∧ s.sealed 1 = some 1 ∧ s.content 2 = [4] := by
  obtain ⟨s, hs, hsealed⟩ := exists_reaches_of_run (machine ⟨10, 2, true, false⟩ .empty) SealsCleanly
    [.lookUp, .scan 0, .open_ 0 true, .insert 0,
      .enqueue 0 [1], .enqueue 0 [2], .drain 0, .write 0, .count 0, .check 0 false, .sealActive 0 .rotated,
      .enqueue 0 [3], .drain 0, .write 0, .count 0, .check 0 false, .findStale, .sealStale 0 .rotated,
      .enqueue 0 [4], .drain 0, .write 0]
    (fun s => s.sealed 0 = some 2 ∧ s.sealed 1 = some 1 ∧ s.content 2 = [4]) (by decide)
  exact ⟨s, hs, sealed_segment_unchanged _ _ hs, hsealed⟩

/-- There is one queue, at an unrecorded segment, whose file has the bytes counted or to be counted.
-/
theorem one_active_queue (c : RotationConfig) (disk : OrderedMap Nat (List UInt8))
    (h : Reaches (machine c disk) SealsCleanly s) :
    s.queues.length ≤ 1 ∧ ∀ q ∈ s.queues, s.QueueOk q := by
  have hinv : s.Inv :=
    h.invariant (Inv.init c disk) fun _ _ _ hs hclean hstep => hs.step hclean hstep
  exact ⟨hinv.one, hinv.queue⟩

theorem one_active_queue_written : ∃ s,
    Reaches (machine ⟨10, 2, true, false⟩ .empty) SealsCleanly s ∧
      s.content 0 = [1] ∧ s.queues.length ≤ 1 ∧ ∀ q ∈ s.queues, s.QueueOk q :=
  exists_reaches_and _ _
    [.lookUp, .scan 0, .open_ 0 true, .insert 0, .enqueue 0 [1], .drain 0, .write 0]
    (by decide) fun _ hs => one_active_queue _ _ hs

theorem not_sealedUnchanged (hsealed : s.sealed id = some size)
    (hlength : (s.content id).length ≠ size) : ¬ s.SealedUnchanged := by
  intro h
  obtain ⟨file, hfile, -, hsize⟩ := h id size hsealed
  rw [content, hfile] at hlength
  exact hlength hsize.symm

theorem exists_wrong_size (as : List Action)
    (n id size : Nat) (bytes : List UInt8) (hne : bytes.length ≠ size)
    (hrun : ((machine c disk).runWith Always (machine c disk).init as).any fun s =>
      s.queues.length = n ∧ s.sealed id = some size ∧ s.content id = bytes) :
    ∃ s, Reaches (machine c disk) Always s ∧ ¬ s.SealedUnchanged ∧
      s.queues.length = n ∧ s.sealed id = some size ∧ s.content id = bytes := by
  obtain ⟨s, hs, hend⟩ := exists_reaches_of_run (machine c disk) Always as _ hrun
  exact ⟨s, hs, not_sealedUnchanged hend.2.1 (by rwa [hend.2.2]), hend⟩

/-- Two queues append to segment 0; the next file cannot be created; a failed write leaves a byte;
an idle seal comes between a write and its count. -/
theorem sealed_segment_changes :
    (∃ s, Reaches (machine ⟨10, 2, true, false⟩ .empty) Always s ∧ ¬ s.SealedUnchanged ∧
      s.queues.length = 2 ∧ s.sealed 0 = some 2 ∧ s.content 0 = [1, 2, 3]) ∧
    (∃ s, Reaches (machine ⟨10, 2, true, false⟩ .empty) Always s ∧ ¬ s.SealedUnchanged ∧
      s.queues.length = 1 ∧ s.sealed 0 = some 2 ∧ s.content 0 = [1, 2, 3]) ∧
    (∃ s, Reaches (machine ⟨10, 2, true, false⟩ .empty) Always s ∧ ¬ s.SealedUnchanged ∧
      s.queues.length = 1 ∧ s.sealed 0 = some 2 ∧ s.content 0 = [9, 1, 2]) ∧
    (∃ s, Reaches (machine ⟨10, 2, true, false⟩ .empty) Always s ∧ ¬ s.SealedUnchanged ∧
      s.queues.length = 1 ∧ s.sealed 1 = some 2 ∧ s.content 1 = [3]) := by
  refine ⟨?_, ?_, ?_, ?_⟩
  · exact exists_wrong_size [.lookUp, .lookUp, .scan 0, .scan 1, .open_ 0 true, .open_ 1 true, .insert 0, .insert 0,
      .enqueue 0 [1, 2], .drain 0, .write 0, .count 0, .check 0 false, .sealActive 0 .rotated,
      .enqueue 1 [3], .drain 1, .write 1] 2 0 2 [1, 2, 3] (by decide) (by decide)
  · exact exists_wrong_size [.lookUp, .scan 0, .open_ 0 true, .insert 0,
      .enqueue 0 [1, 2], .drain 0, .write 0, .count 0, .check 0 false, .sealActive 0 .rotateFails,
      .enqueue 0 [3], .drain 0, .write 0] 1 0 2 [1, 2, 3] (by decide) (by decide)
  · exact exists_wrong_size [.lookUp, .scan 0, .open_ 0 true, .insert 0,
      .enqueue 0 [9], .drain 0, .writeFails 0 1,
      .enqueue 0 [1, 2], .drain 0, .write 0, .count 0, .check 0 false, .sealActive 0 .rotated]
      1 0 2 [9, 1, 2] (by decide) (by decide)
  · exact exists_wrong_size [.lookUp, .scan 0, .open_ 0 true, .insert 0,
      .enqueue 0 [1], .drain 0, .write 0, .count 0, .check 0 false,
      .enqueue 0 [2], .drain 0, .write 0, .findStale, .sealStale 0 .rotated, .count 0, .check 0 false,
      .enqueue 0 [3], .drain 0, .write 0, .count 0, .check 0 false, .sealActive 0 .rotated]
      1 1 2 [3] (by decide) (by decide)

end SegmentWal

end ChronikStream
