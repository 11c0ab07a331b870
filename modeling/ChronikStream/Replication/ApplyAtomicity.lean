import ChronikStream.Lib.Fallible
import ChronikStream.Produce.LeaderPartition
import ChronikStream.Produce.PartitionStates
import ChronikStream.Produce.WireRoundTrip
import ChronikStream.Replication.AcksAll
import ChronikStream.Replication.ReplicaFetcher

/-!
# What a failed response leaves behind

`apply_fetched_records` plans a whole blob and then appends batch by batch, all but the last without
waiting for the write. A batch that fails ends the call after the batches before it were applied; the
fetcher keeps its position and appends these a second time. A failed call changes nothing exactly
where the batches before the one that fails are empty and that one is not written (`FailsAfter`), and
no offset is appended twice if batches have no more records than offsets (`FitsHeader`).
-/

namespace ChronikStream

open Bytes Fallible Machine OffsetRange List ReplicaFetcher RecordBatchHeader CanonicalBatch

/-- A follower's partition: the WAL, the epoch history, the transaction index and the offsets. -/
structure FollowerPartition where
  wal : List StoredBatch
  epochs : LeaderEpochCache
  transactions : PartitionTxnState
  offsets : Option PartitionState

/-- What becomes of a batch that is given to the WAL. -/
inductive WalAppend where
  /-- The queue does not take it. -/
  | refused
  /-- It is queued, and the commit that should write it fails. -/
  | lost
  /-- It is written, and who waits for it is not told in time. -/
  | unconfirmed
  | written
  deriving DecidableEq

namespace WalAppend

def Writes (a : WalAppend) : Prop := a = .unconfirmed ∨ a = .written
deriving Decidable

/-- What the caller is told, who waits for the write (`acks` 1) or only for the queue (`acks` 0). -/
def Reported (a : WalAppend) (waitForFsync : Bool) : Prop :=
  a = .written ∨ (waitForFsync = false ∧ a ≠ .refused)
deriving Decidable

end WalAppend

/-- How the append of a batch ends, and whether the partition's state can be created. -/
structure BatchOutcome where
  append : WalAppend
  created : Bool

inductive ApplyFailure where
  | refused (refusal : ApplyRefusal)
  | appendFailed (baseOffset : Int)
  deriving DecidableEq

/-- What the transaction index reads of a batch. -/
def CanonicalBatch.txnBatch (c : CanonicalBatch) (h : c.canonical.records ≠ []) :
    TxnBatch CanonicalRecordEntry where
  baseOffset := c.canonical.baseOffset
  epoch := c.fields.partitionLeaderEpoch
  records := c.canonical.records.map fun r => ⟨r.key, r⟩
  nonempty := fun hnil => h (map_eq_nil_iff.1 hnil)
  producerId := c.fields.producerId
  producerEpoch := c.fields.producerEpoch
  baseSequence := c.fields.baseSequence
  isTransactional := c.fields.isTransactional
  isControl := c.fields.isControl

/-- `update_high_watermark`; that the state could not be created is only logged. -/
def updateHighWatermark (offsets : Option PartitionState) (highWatermark : Int) (created : Bool) :
    Option PartitionState :=
  match offsets with
  | some state => some (state.raiseWatermark (asU64 (max highWatermark 0)))
  | none => if created then some (.new highWatermark 0) else none

namespace FollowerPartition

/-- The WAL after a batch was given to it. -/
def walAfter (p : FollowerPartition) (c : CanonicalBatch) (a : WalAppend) : List StoredBatch :=
  if a.Writes then
    p.wal ++ [⟨c.canonical.baseOffset, c.canonical.baseOffset + c.canonical.records.length - 1,
      c.canonical⟩]
  else p.wal

/-- `apply_canonical_batch`: the partition afterwards, and the log end where the append is reported
as a success. -/
def applyCanonicalBatch (p : FollowerPartition) (c : CanonicalBatch) (outcome : BatchOutcome)
    (waitForFsync : Bool) : FollowerPartition × Option Int :=
  if h : c.canonical.records = [] then (p, some c.canonical.baseOffset)
  else
    let nextOffset := c.canonical.baseOffset + c.canonical.records.length
    if outcome.append.Reported waitForFsync then
      ({ wal := p.walAfter c outcome.append
         epochs := p.epochs.assign c.fields.partitionLeaderEpoch c.canonical.baseOffset
         transactions := p.transactions.applyLogBatch (c.txnBatch h)
         offsets := updateHighWatermark p.offsets nextOffset outcome.created },
        some nextOffset)
    else ({ p with wal := p.walAfter c outcome.append }, none)

end FollowerPartition

def appliedFrames (actions : List BatchAction) : List BatchFrame :=
  actions.filterMap fun
    | .apply frame => some frame
    | .skip _ => none

/-- The plan over the bytes of whole batches appends what the plan over their offsets does. -/
theorem appliedFrames_planFrom {bs : List StoredBatch} (hbs : ∀ b ∈ bs, b.Replicable codecs)
    (hfuel : (bs.flatMap (·.wire)).length ≤ fuel) :
    (planFrom fuel pos cursor (bs.flatMap (·.wire))).toOption.map appliedFrames =
      (planBatches cursor bs).map (map StoredBatch.frame) := by
  induction bs generalizing fuel pos cursor with
  | nil => cases fuel <;> rfl
  | cons b bs ih =>
    obtain ⟨hb, hbs⟩ := forall_mem_cons.1 hbs
    have hlen := hb.length_wire
    rw [flatMap_cons, length_append] at hfuel
    obtain ⟨fuel, rfl⟩ := Nat.exists_eq_add_one.2 (by omega : 0 < fuel)
    rw [flatMap_cons, hb.planFrom_append, planBatches]
    split_ifs
    · rw [← @ih fuel (pos + b.wire.length) _ hbs (by omega)]
      cases planFrom fuel _ cursor _ <;> rfl
    · rw [Option.map_map]
      change _ = Option.map ((b.frame :: ·) ∘ map StoredBatch.frame) _
      rw [← Option.map_map, ← @ih fuel (pos + b.wire.length) _ hbs (by omega)]
      cases planFrom fuel _ (last b + 1) _ <;> rfl
    · rfl
    · rfl

namespace FollowerPartition

/-- The loop of `apply_fetched_records`; it waits for the last of the batches. -/
def applyActions (codecs : Codecs) (outcomes : BatchFrame → BatchOutcome) :
    FollowerPartition → Int → List BatchAction → FollowerPartition × Except ApplyFailure Int
  | p, leo, [] => (p, .ok leo)
  | p, leo, .skip _ :: actions => applyActions codecs outcomes p leo actions
  | p, _, .apply frame :: actions =>
    match fromKafkaBatch codecs frame.wire with
    | none => (p, .error (.refused (.malformed (.notDecoded frame.baseOffset))))
    | some c =>
      match p.applyCanonicalBatch c (outcomes frame) (appliedFrames actions).isEmpty with
      | (p', none) => (p', .error (.appendFailed frame.baseOffset))
      | (p', some next) => applyActions codecs outcomes p' next actions

/-- `apply_fetched_records`: the partition afterwards, and its log end or the failure. -/
def applyFetchedRecords (codecs : Codecs) (outcomes : BatchFrame → BatchOutcome)
    (p : FollowerPartition) (records : List UInt8) (expectedOffset : Int) :
    FollowerPartition × Except ApplyFailure Int :=
  match ReplicaFetcher.planBatches records expectedOffset with
  | .error refusal => (p, .error (.refused refusal))
  | .ok actions => applyActions codecs outcomes p expectedOffset actions

end FollowerPartition

/-! ## A follower that fetches again -/

/-- A follower's partition and the offset it fetches from. -/
structure Refetching where
  partition : FollowerPartition
  position : Int

/-- A response: the bytes, and how the appends of their batches end. -/
structure FetchedBlob where
  records : List UInt8
  outcomes : BatchFrame → BatchOutcome

namespace Refetching

/-- `handle_partition_response` for a response without an error code. -/
def handlePartitionResponse (codecs : Codecs) (s : Refetching) (blob : FetchedBlob) : Refetching :=
  match s.partition.applyFetchedRecords codecs blob.outcomes blob.records s.position with
  | (p, .ok leo) => ⟨p, leo⟩
  -- the leader's log starts behind the position
  | (p, .error (.refused (.gap _ found))) => ⟨p, found⟩
  | (p, .error _) => ⟨p, s.position⟩

def machine (codecs : Codecs) (init : Refetching) : Machine Refetching FetchedBlob where
  init := init
  step s blob := some (s.handlePartitionResponse codecs blob)

end Refetching

/-! ## Where a response can fail -/

section
variable (codecs : Codecs) (outcomes : BatchFrame → BatchOutcome)

/-- The batch does not decode, or its append is reported as a failure. -/
def Fails (waitForFsync : Bool) (frame : BatchFrame) : Prop :=
  ∀ c ∈ fromKafkaBatch codecs frame.wire,
    c.canonical.records ≠ [] ∧ ¬ (outcomes frame).append.Reported waitForFsync
deriving Decidable

/-- The batch leaves nothing in the WAL. -/
def Unwritten (frame : BatchFrame) : Prop :=
  ∀ c ∈ fromKafkaBatch codecs frame.wire,
    c.canonical.records = [] ∨ ¬ (outcomes frame).append.Writes
deriving Decidable

def NeverFails : List BatchFrame → Prop
  | [] => True
  | frame :: frames => ¬ Fails codecs outcomes frames.isEmpty frame ∧ NeverFails frames

/-- No batch fails, or the first that does is not written and all before it are `quiet`. -/
def FailsAfter (quiet : BatchFrame → Prop) : List BatchFrame → Prop
  | [] => True
  | frame :: frames =>
    (Fails codecs outcomes frames.isEmpty frame ∧ Unwritten codecs outcomes frame) ∨
      (¬ Fails codecs outcomes frames.isEmpty frame ∧
        (NeverFails codecs outcomes frames ∨ (quiet frame ∧ FailsAfter quiet frames)))

instance decidableNeverFails :
    (frames : List BatchFrame) → Decidable (NeverFails codecs outcomes frames)
  | [] => isTrue trivial
  | _ :: frames =>
    have := decidableNeverFails frames
    inferInstanceAs (Decidable (_ ∧ _))

instance decidableFailsAfter (quiet : BatchFrame → Prop) [DecidablePred quiet] :
    (frames : List BatchFrame) → Decidable (FailsAfter codecs outcomes quiet frames)
  | [] => isTrue trivial
  | _ :: frames =>
    have := decidableFailsAfter quiet frames
    inferInstanceAs (Decidable (_ ∨ _))

/-- The batch has no more records than its header gives it offsets. -/
def FitsHeader (frame : BatchFrame) : Prop :=
  ∀ c ∈ fromKafkaBatch codecs frame.wire,
    frame.baseOffset + c.canonical.records.length ≤ frame.lastOffset + 1
deriving Decidable

/-- The batches that a blob has for a follower at a position. -/
def blobFrames (records : List UInt8) (position : Int) : List BatchFrame :=
  match ReplicaFetcher.planBatches records position with
  | .error _ => []
  | .ok actions => appliedFrames actions

/-- The batches of a response fit their headers, and nothing is written where one of them fails. -/
def Refetching.Retriable (s : Refetching) (blob : FetchedBlob) : Prop :=
  FailsAfter codecs blob.outcomes (Unwritten codecs blob.outcomes)
      (blobFrames blob.records s.position) ∧
    ∀ frame ∈ blobFrames blob.records s.position, FitsHeader codecs frame
deriving Decidable

end

/-! ## All or nothing -/

section
variable {codecs : Codecs} {outcomes : BatchFrame → BatchOutcome}

@[simp] theorem appliedFrames_apply :
    appliedFrames (.apply frame :: actions) = frame :: appliedFrames actions := rfl

namespace FollowerPartition

section
variable (p : FollowerPartition) (leo : Int) (frame : BatchFrame) (actions : List BatchAction)

/-- A batch that fails ends the loop, with the WAL changed at most. -/
theorem applyActions_fails (h : Fails codecs outcomes (appliedFrames actions).isEmpty frame) :
    ∃ wal failure, applyActions codecs outcomes p leo (.apply frame :: actions) =
        ({ p with wal := wal }, .error failure) ∧
      (∀ expected found, failure ≠ .refused (.gap expected found)) ∧
      p.wal.length ≤ wal.length ∧ (Unwritten codecs outcomes frame ↔ wal = p.wal) := by
  rw [applyActions]
  cases hc : fromKafkaBatch codecs frame.wire with
  | none =>
    refine ⟨p.wal, _, rfl, fun _ _ heq => ?_, le_refl _, fun _ => rfl, fun _ c' hc' => ?_⟩
    · cases heq
    · rw [hc] at hc'
      cases hc'
  | some c =>
    obtain ⟨hne, hfailed⟩ := h c hc
    dsimp only
    rw [applyCanonicalBatch, dif_neg hne]
    dsimp only
    rw [if_neg hfailed]
    refine ⟨_, _, rfl, fun _ _ => ApplyFailure.noConfusion, ?_, ?_⟩
    · rw [walAfter]
      split
      · rw [length_append]
        exact Nat.le_add_right _ _
      · exact le_refl _
    · rw [Unwritten, hc, walAfter]
      constructor
      · intro hunwritten
        rw [if_neg ((hunwritten c rfl).resolve_left hne)]
      · rintro hwal c' hc'
        cases hc'
        refine .inr fun hwrites => ?_
        rw [if_pos hwrites] at hwal
        exact absurd (append_right_eq_self.1 hwal) (by simp)

/-- A batch that does not fail has nothing to append, or its append is reported as a success. -/
theorem applyActions_succeeds (h : ¬ Fails codecs outcomes (appliedFrames actions).isEmpty frame) :
    ∃ c, fromKafkaBatch codecs frame.wire = some c ∧
      ((c.canonical.records = [] ∧ applyActions codecs outcomes p leo (.apply frame :: actions) =
          applyActions codecs outcomes p c.canonical.baseOffset actions) ∨
        (c.canonical.records ≠ [] ∧ (outcomes frame).append ≠ .refused ∧
          ∃ p', applyActions codecs outcomes p leo (.apply frame :: actions) =
            applyActions codecs outcomes p' (c.canonical.baseOffset + c.canonical.records.length)
              actions ∧ p'.wal = p.walAfter c (outcomes frame).append)) := by
  rw [Fails] at h
  cases hc : fromKafkaBatch codecs frame.wire with
  | none =>
    rw [hc] at h
    exact absurd (fun _ hmem => by cases hmem) h
  | some c =>
    refine ⟨c, rfl, ?_⟩
    rw [applyActions, hc]
    dsimp only
    rw [applyCanonicalBatch]
    by_cases hne : c.canonical.records = []
    · rw [dif_pos hne]
      exact .inl ⟨hne, rfl⟩
    rw [dif_neg hne]
    have hreported : (outcomes frame).append.Reported (appliedFrames actions).isEmpty := by
      by_contra hfailed
      refine h fun c' hc' => ?_
      rw [hc] at hc'
      cases hc'
      exact ⟨hne, hfailed⟩
    dsimp only
    rw [if_pos hreported]
    refine .inr ⟨hne, ?_, _, rfl, rfl⟩
    rcases hreported with hwritten | ⟨-, hqueued⟩
    · rw [hwritten]
      exact WalAppend.noConfusion
    · exact hqueued

end

theorem error_iff (p : FollowerPartition) (leo : Int) (actions : List BatchAction) :
    (∃ p' failure, applyActions codecs outcomes p leo actions = (p', .error failure)) ↔
      ¬ NeverFails codecs outcomes (appliedFrames actions) := by
  induction actions generalizing p leo with
  | nil => simp [applyActions, appliedFrames, NeverFails]
  | cons action actions ih =>
    cases action with
    | skip frame => exact ih p leo
    | apply frame =>
    rw [appliedFrames_apply, NeverFails]
    by_cases hfails : Fails codecs outcomes (appliedFrames actions).isEmpty frame
    · obtain ⟨wal, failure, heq, -⟩ := applyActions_fails p leo frame actions hfails
      exact ⟨fun _ h => h.1 hfails, fun _ => ⟨_, failure, heq⟩⟩
    · rw [and_iff_right hfails]
      obtain ⟨c, -, ⟨-, heq⟩ | ⟨-, -, p', heq, -⟩⟩ :=
        applyActions_succeeds p leo frame actions hfails
      · rw [heq]
        exact ih p _
      · rw [heq]
        exact ih p' _

/-- Where the batches before the one that fails are quiet, what quiet batches keep is kept. -/
theorem kept_of_error {quiet : BatchFrame → Prop} {α : Type} (field : FollowerPartition → α)
    (hquiet : ∀ (p p' : FollowerPartition) frame c, quiet frame →
      fromKafkaBatch codecs frame.wire = some c → c.canonical.records ≠ [] →
      p'.wal = p.walAfter c (outcomes frame).append → field p' = field p)
    {p p' : FollowerPartition} {failure : ApplyFailure}
    (h : FailsAfter codecs outcomes quiet (appliedFrames actions))
    (hrun : applyActions codecs outcomes p leo actions = (p', .error failure)) :
    field p' = field p := by
  induction actions generalizing p leo with
  | nil => cases hrun
  | cons action actions ih =>
    cases action with
    | skip frame => exact ih h hrun
    | apply frame =>
    rcases h with ⟨hfails, hunwritten⟩ | ⟨hfails, hnever | ⟨hq, hrest⟩⟩
    · obtain ⟨wal, failure, heq, -, -, hwal⟩ := applyActions_fails p leo frame actions hfails
      rw [heq, hwal.1 hunwritten] at hrun
      cases hrun
      rfl
    · exact absurd (show NeverFails codecs outcomes (frame :: appliedFrames actions) from
        ⟨hfails, hnever⟩) ((error_iff p leo (.apply frame :: actions)).1 ⟨p', failure, hrun⟩)
    · obtain ⟨c, hc, ⟨-, heq⟩ | ⟨hne, -, q, heq, hwal⟩⟩ :=
        applyActions_succeeds p leo frame actions hfails
      · exact ih hrest (heq ▸ hrun)
      · exact (ih hrest (heq ▸ hrun)).trans (hquiet p q frame c hq hc hne hwal)

section
variable {p p' : FollowerPartition} {failure : ApplyFailure}

theorem kept_of_applyFetchedRecords_error {quiet : BatchFrame → Prop} {α : Type}
    (field : FollowerPartition → α)
    (hquiet : ∀ (p p' : FollowerPartition) frame c, quiet frame →
      fromKafkaBatch codecs frame.wire = some c → c.canonical.records ≠ [] →
      p'.wal = p.walAfter c (outcomes frame).append → field p' = field p)
    (h : FailsAfter codecs outcomes quiet (blobFrames records position))
    (hrun : p.applyFetchedRecords codecs outcomes records position = (p', .error failure)) :
    field p' = field p := by
  rw [applyFetchedRecords] at hrun
  rw [blobFrames] at h
  cases hplan : ReplicaFetcher.planBatches records position with
  | error refusal =>
    rw [hplan] at hrun
    cases hrun
    rfl
  | ok actions =>
    rw [hplan] at hrun h
    exact kept_of_error field hquiet h hrun

theorem wal_of_error
    (h : FailsAfter codecs outcomes (Unwritten codecs outcomes) (blobFrames records position))
    (hrun : p.applyFetchedRecords codecs outcomes records position = (p', .error failure)) :
    p'.wal = p.wal := by
  refine kept_of_applyFetchedRecords_error wal (fun p p' frame c hquiet hc hne hwal => ?_) h hrun
  rw [hwal, walAfter, if_neg ((hquiet c hc).resolve_left hne)]

end

end FollowerPartition

end

/-! ## No offset twice -/

/-- A plan from `cursor` on: each batch starts where the one before it ends and is a v2 batch at its
base. -/
def PlannedFrom : Int → List BatchAction → Prop
  | _, [] => True
  | cursor, .skip _ :: actions => PlannedFrom cursor actions
  | cursor, .apply frame :: actions =>
    frame.baseOffset = cursor ∧ cursor ≤ frame.lastOffset ∧
      (read frame.wire).magic = 2 ∧
      (read frame.wire).baseOffset = frame.baseOffset ∧
      PlannedFrom (frame.lastOffset + 1) actions

theorem read_take (bytes : List UInt8) (h : 17 ≤ size) :
    (read (bytes.take size)).baseOffset = (read bytes).baseOffset ∧
      (read (bytes.take size)).magic = (read bytes).magic := by
  have htake : (bytes.take size).take 17 = bytes.take 17 := by
    rw [take_take, min_eq_left h]
  constructor <;> exact congrArg ofBeInt (slice_eq_of_take_eq htake (by decide))

/-- What one round of a plan can do: end, skip a batch, append the batch at the cursor, or refuse. -/
theorem planFrom_cases (fuel pos : Nat) (cursor : Int) (bytes : List UInt8) :
    planFrom (fuel + 1) pos cursor bytes = .ok [] ∨
    (∃ frame pos' bytes', planFrom (fuel + 1) pos cursor bytes =
      (planFrom fuel pos' cursor bytes').map (.skip frame :: ·)) ∨
    (∃ frame pos' bytes', frame.baseOffset = cursor ∧ cursor ≤ frame.lastOffset ∧
      (read frame.wire).magic = 2 ∧
      (read frame.wire).baseOffset = frame.baseOffset ∧
      planFrom (fuel + 1) pos cursor bytes =
        (planFrom fuel pos' (frame.lastOffset + 1) bytes').map (.apply frame :: ·)) ∨
    (∃ refusal, planFrom (fuel + 1) pos cursor bytes = .error refusal ∧
      ∀ expected found, refusal = .gap expected found → cursor < found) := by
  generalize hround : planFrom (fuel + 1) pos cursor bytes = round
  rw [planFrom] at hround
  dsimp only at hround
  split at hround
  · exact .inl hround.symm
  split at hround
  · exact .inr (.inr (.inr ⟨_, hround.symm, fun _ _ h => by cases h⟩))
  case isFalse hlength =>
  split at hround
  · exact .inl hround.symm
  split at hround
  · exact .inr (.inr (.inr ⟨_, hround.symm, fun _ _ h => by cases h⟩))
  case isFalse hmagic =>
  split at hround
  · exact .inr (.inr (.inr ⟨_, hround.symm, fun _ _ h => by cases h⟩))
  case isFalse hdelta =>
  split at hround
  · exact .inr (.inl ⟨_, _, _, hround.symm⟩)
  case isFalse hlast =>
  split at hround
  case isTrue hbase =>
    have hsize : 17 ≤ 12 + (read bytes).batchLength.toNat := by omega
    obtain ⟨hreadBase, hreadMagic⟩ := read_take bytes hsize
    exact .inr (.inr (.inl ⟨⟨bytes.take (12 + (read bytes).batchLength.toNat), _, _, _⟩,
      _, _, hbase, not_lt.1 hlast, hreadMagic.trans (not_not.1 hmagic), hreadBase, hround.symm⟩))
  case isFalse hbase =>
  split at hround
  · exact .inr (.inr (.inr ⟨_, hround.symm, fun _ _ h => by cases h⟩))
  case isFalse hbelow =>
    refine .inr (.inr (.inr ⟨_, hround.symm, fun expected found h => ?_⟩))
    cases h
    omega

/-- The batches that a plan appends follow each other from the cursor on. -/
theorem plannedFrom_of_planFrom
    (h : planFrom fuel pos cursor bytes = .ok actions) : PlannedFrom cursor actions := by
  induction fuel generalizing pos cursor bytes actions with
  | zero =>
    cases h
    trivial
  | succ fuel ih =>
    obtain heq | ⟨frame, pos', bytes', heq⟩ |
      ⟨frame, pos', bytes', hbase, hlast, hmagic, hread, heq⟩ | ⟨refusal, heq, -⟩ :=
      planFrom_cases fuel pos cursor bytes
    · rw [heq] at h
      cases h
      trivial
    · rw [heq] at h
      obtain ⟨rest, hrest, rfl⟩ := exists_ok_of_map_eq_ok h
      have hplanned : PlannedFrom cursor rest := ih hrest
      exact hplanned
    · rw [heq] at h
      obtain ⟨rest, hrest, rfl⟩ := exists_ok_of_map_eq_ok h
      exact ⟨hbase, hlast, hmagic, hread, ih hrest⟩
    · rw [heq] at h
      cases h

theorem le_of_planFrom_gap (h : planFrom fuel pos cursor bytes = .error (.gap expected found)) :
    cursor ≤ found := by
  induction fuel generalizing pos cursor bytes with
  | zero => cases h
  | succ fuel ih =>
    obtain heq | ⟨frame, pos', bytes', heq⟩ | ⟨frame, pos', bytes', -, hlast, -, -, heq⟩ |
      ⟨refusal, heq, hgap⟩ := planFrom_cases fuel pos cursor bytes
    · rw [heq] at h
      cases h
    · rw [heq] at h
      exact ih (error_of_map_eq_error h)
    · rw [heq] at h
      have hle := ih (error_of_map_eq_error h)
      omega
    · rw [heq] at h
      exact le_of_lt (hgap expected found (Except.error.inj h))

section

theorem baseOffset_of_fromKafkaBatch (hmagic : (read w).magic = 2)
    (h : fromKafkaBatch codecs w = some c) :
    c.canonical.baseOffset = (read w).baseOffset := by
  obtain ⟨⟨batch, consumed⟩, hdecode, hc⟩ := Option.bind_eq_some_iff.1 h
  obtain ⟨-, -, -, -, hheader, -⟩ :=
    (KafkaRecordBatch.decode_eq_some (length_of_magic hmagic) (not_isLegacy hmagic)).1 hdecode
  rw [CanonicalRecord.fromKafkaBatch, hdecode] at hc
  cases hc
  dsimp only
  rw [hheader]

namespace FollowerPartition

theorem applyActions_ne_gap :
    applyActions codecs outcomes p leo actions ≠ (p', .error (.refused (.gap expected found))) := by
  intro h
  induction actions generalizing p leo with
  | nil => cases h
  | cons action actions ih =>
    cases action with
    | skip frame => exact ih h
    | apply frame =>
    by_cases hfails : Fails codecs outcomes (appliedFrames actions).isEmpty frame
    · obtain ⟨wal, failure, heq, hgap, -⟩ := applyActions_fails p leo frame actions hfails
      rw [heq] at h
      exact hgap expected found (Except.error.inj (Prod.mk.inj h).2)
    obtain ⟨c, -, ⟨-, heq⟩ | ⟨-, -, p', heq, -⟩⟩ := applyActions_succeeds p leo frame actions hfails
    · exact ih (heq ▸ h)
    · exact ih (heq ▸ h)

/-- The ranges of the WAL have no offset in common, and all of them lie below `leo`. -/
structure ApartBelow (p : FollowerPartition) (leo : Int) : Prop where
  apart : p.wal.Pairwise Apart
  below : ∀ b ∈ p.wal, b.lastOffset < leo

theorem ApartBelow.mono {p p' : FollowerPartition} (h : p.ApartBelow leo) (hwal : p'.wal = p.wal)
    (hle : leo ≤ leo') : p'.ApartBelow leo' :=
  ⟨hwal ▸ h.apart, fun b hb => lt_of_lt_of_le (h.below b (hwal ▸ hb)) hle⟩

/-- A batch that starts at or behind `leo` is appended apart from the others, if it is. -/
theorem ApartBelow.walAfter {p p' : FollowerPartition} (h : p.ApartBelow leo)
    (hwal : p'.wal = p.walAfter c a) (hbase : leo ≤ c.canonical.baseOffset) :
    p'.ApartBelow (c.canonical.baseOffset + c.canonical.records.length) := by
  rw [FollowerPartition.walAfter] at hwal
  split at hwal
  case isFalse => exact h.mono hwal (by omega)
  case isTrue =>
  constructor
  · rw [hwal, pairwise_concat]
    refine ⟨h.apart, ?_⟩
    intro a ha
    exact .inl (lt_of_lt_of_le (h.below a ha) hbase)
  · rw [hwal, forall_mem_concat]
    exact ⟨fun x hx => lt_of_lt_of_le (h.below x hx) (by omega), by dsimp only; omega⟩

/-- The loop appends apart from what is there, and what it reports as the log end lies behind all. -/
theorem ApartBelow.applyActions {p : FollowerPartition}
    (h : p.ApartBelow leo) (hcursor : leo ≤ cursor) (hplan : PlannedFrom cursor actions)
    (hfits : ∀ frame ∈ appliedFrames actions, FitsHeader codecs frame)
    (hrun : FollowerPartition.applyActions codecs outcomes p leo actions = (p', .ok leo')) :
    p'.ApartBelow leo' := by
  induction actions generalizing p leo cursor with
  | nil =>
    cases hrun
    exact h
  | cons action actions ih =>
    cases action with
    | skip frame => exact ih h hcursor hplan hfits hrun
    | apply frame =>
    obtain ⟨hbase, hlast, hmagic, hread, hrest⟩ := hplan
    rw [appliedFrames_apply, forall_mem_cons] at hfits
    obtain ⟨hfit, hfits⟩ := hfits
    by_cases hfails : Fails codecs outcomes (appliedFrames actions).isEmpty frame
    · obtain ⟨wal, failure, heq, -⟩ := applyActions_fails p leo frame actions hfails
      rw [heq] at hrun
      cases hrun
    obtain ⟨c, hc, hcases⟩ := applyActions_succeeds p leo frame actions hfails
    have hcbase := (baseOffset_of_fromKafkaBatch hmagic hc).trans hread
    have hcount := hfit c hc
    rcases hcases with ⟨-, heq⟩ | ⟨-, -, q, heq, hwal⟩
    · exact ih (h.mono rfl (by omega)) (by omega) hrest hfits (heq ▸ hrun)
    · exact ih (h.walAfter hwal (by omega)) (by omega) hrest hfits (heq ▸ hrun)

end FollowerPartition

namespace Refetching

/-- The WAL of a follower lies below its position, no offset twice. -/
def Inv (s : Refetching) : Prop := s.partition.ApartBelow s.position

theorem inv_handlePartitionResponse {s : Refetching} {blob : FetchedBlob} (h : s.Inv)
    (hretriable : Retriable codecs s blob) : (s.handlePartitionResponse codecs blob).Inv := by
  obtain ⟨hunwritten, hfits⟩ := hretriable
  rw [handlePartitionResponse]
  generalize happly : s.partition.applyFetchedRecords codecs blob.outcomes blob.records s.position =
    applied
  obtain ⟨p, result⟩ := applied
  cases result with
  | ok leo =>
    rw [FollowerPartition.applyFetchedRecords] at happly
    rw [blobFrames] at hfits
    cases hplan : ReplicaFetcher.planBatches blob.records s.position with
    | error refusal =>
      rw [hplan] at happly
      cases happly
    | ok actions =>
      rw [hplan] at happly hfits
      exact FollowerPartition.ApartBelow.applyActions h (le_refl _) (plannedFrom_of_planFrom hplan)
        hfits happly
  | error failure =>
    have hwal := FollowerPartition.wal_of_error hunwritten happly
    cases failure with
    | appendFailed baseOffset => exact h.mono hwal (le_refl _)
    | refused refusal =>
    cases refusal with
    | straddle | malformed => exact h.mono hwal (le_refl _)
    | gap expected found =>
    rw [FollowerPartition.applyFetchedRecords] at happly
    have hle : s.position ≤ found := by
      cases hplan : ReplicaFetcher.planBatches blob.records s.position with rw [hplan] at happly
      | error refusal =>
        cases happly
        exact le_of_planFrom_gap hplan
      | ok actions =>
        exact absurd happly FollowerPartition.applyActions_ne_gap
    exact h.mono hwal hle

theorem inv_of_reaches {init s : Refetching} (hinit : init.Inv)
    (h : Reaches (machine codecs init) (Retriable codecs) s) : s.Inv := by
  refine h.invariant hinit fun s blob s' hs hretriable hstep => ?_
  cases hstep
  exact inv_handlePartitionResponse hs hretriable

end Refetching

end

namespace ApplyAtomicity

def fresh : Refetching := ⟨⟨[], .empty, .empty, none⟩, 0⟩

def written : BatchFrame → BatchOutcome := fun _ => ⟨.written, true⟩

/-- No append is. -/
def refused : BatchFrame → BatchOutcome := fun _ => ⟨.refused, true⟩

end ApplyAtomicity

open ApplyAtomicity

end ChronikStream
