import ChronikStream.Produce.RecordBatch

/-!
# Applying fetched bytes

`plan_batches` walks a fetched blob with the follower's log end as its cursor and classifies each
batch by its header; the batches to append are then decoded, and each moves the log end by the
number of its records. Where the two readings agree (`StoredBatch.Replicable`) exactly the batches
that arrived whole are appended (`planFrom_wires`, `applyActions_frames`).
-/

namespace ChronikStream

open Bytes OffsetRange List RecordBatchHeader

/-- A batch within a fetched blob: its bytes, and what its header says. -/
structure BatchFrame where
  wire : List UInt8
  baseOffset : Int
  lastOffset : Int
  recordCount : Int
  deriving DecidableEq

inductive BatchAction where
  | apply (frame : BatchFrame)
  | skip (frame : BatchFrame)
  deriving DecidableEq

/-- Why a blob is not a sequence of v2 batches, with the byte the batch starts at or its offset. -/
inductive MalformedBatch where
  | declaredLength (pos : Nat) (batchLength : Int)
  | magic (pos : Nat) (magic : Int)
  | negativeLastOffsetDelta (pos : Nat) (lastOffsetDelta : Int)
  | notDecoded (baseOffset : Int)
  deriving DecidableEq

inductive ApplyRefusal where
  | gap (expected found : Int)
  | straddle (expected baseOffset lastOffset : Int)
  | malformed (why : MalformedBatch)
  deriving DecidableEq

namespace ReplicaFetcher

/-- The loop of `plan_batches`, from `pos` on. The number of bytes bounds the number of rounds. -/
def planFrom : Nat → Nat → Int → List UInt8 → Except ApplyRefusal (List BatchAction)
  | 0, _, _, _ => .ok []
  | fuel + 1, pos, cursor, bytes =>
    if bytes.length < 61 then .ok []
    else
      let header := read bytes
      let size := 12 + header.batchLength.toNat
      if header.batchLength < 9 then .error (.malformed (.declaredLength pos header.batchLength))
      else if bytes.length < size then .ok []
      else if header.magic ≠ 2 then .error (.malformed (.magic pos header.magic))
      else if header.lastOffsetDelta < 0 then
        .error (.malformed (.negativeLastOffsetDelta pos header.lastOffsetDelta))
      else
        let lastOffset := header.baseOffset + header.lastOffsetDelta
        let frame := ⟨bytes.take size, header.baseOffset, lastOffset, header.recordsCount⟩
        if lastOffset < cursor then
          (planFrom fuel (pos + size) cursor (bytes.drop size)).map (.skip frame :: ·)
        else if header.baseOffset = cursor then
          (planFrom fuel (pos + size) (lastOffset + 1) (bytes.drop size)).map (.apply frame :: ·)
        else if header.baseOffset < cursor then
          .error (.straddle cursor header.baseOffset lastOffset)
        else .error (.gap cursor header.baseOffset)

def planBatches (bytes : List UInt8) (expectedOffset : Int) : Except ApplyRefusal (List BatchAction) :=
  planFrom bytes.length 0 expectedOffset bytes

/-- `apply_canonical_batch`: the log, and its end as far as the caller is told. -/
def applyCanonicalBatch (log : List StoredBatch) (c : CanonicalRecord) : List StoredBatch × Int :=
  if c.records = [] then (log, c.baseOffset)
  else
    let nextOffset := c.baseOffset + c.records.length
    (log ++ [⟨c.baseOffset, nextOffset - 1, c⟩], nextOffset)

def applyActions (codecs : Codecs) :
    List StoredBatch → Int → List BatchAction → List StoredBatch × Except ApplyRefusal Int
  | log, leo, [] => (log, .ok leo)
  | log, leo, .skip _ :: actions => applyActions codecs log leo actions
  | log, _, .apply frame :: actions =>
    match CanonicalRecord.fromKafkaBatch codecs frame.wire with
    | none => (log, .error (.malformed (.notDecoded frame.baseOffset)))
    | some c =>
      applyActions codecs (applyCanonicalBatch log c).1 (applyCanonicalBatch log c).2 actions

/-- `apply_fetched_records`: the follower's log afterwards, and its end or the refusal. -/
def applyFetchedRecords (codecs : Codecs) (log : List StoredBatch) (records : List UInt8)
    (expectedOffset : Int) : List StoredBatch × Except ApplyRefusal Int :=
  match planBatches records expectedOffset with
  | .error refusal => (log, .error refusal)
  | .ok actions => applyActions codecs log expectedOffset actions

end ReplicaFetcher

/-! ## Batches that can be replicated -/

/-- The bytes a fetch serves for a batch. -/
def StoredBatch.wire (b : StoredBatch) : List UInt8 := b.canonical.toKafkaBatch

/-- The offsets of a stored batch are those of its header, and those that its bytes decode to. -/
structure StoredBatch.Replicable (codecs : Codecs) (b : StoredBatch) : Prop where
  length_wire : 61 ≤ b.wire.length
  batchLength : (read b.wire).batchLength = b.wire.length - 12
  magic : (read b.wire).magic = 2
  baseOffset : (read b.wire).baseOffset = b.baseOffset
  lastOffset : b.baseOffset + (read b.wire).lastOffsetDelta = b.lastOffset
  decodes : CanonicalRecord.fromKafkaBatch codecs b.wire = some b.canonical
  canonical_base : b.canonical.baseOffset = b.baseOffset
  nonempty : b.canonical.records ≠ []
  count : b.lastOffset = b.baseOffset + b.canonical.records.length - 1

/-- The part of a fetch response that a batch takes, as a frame. -/
def StoredBatch.frame (b : StoredBatch) : BatchFrame :=
  ⟨b.wire, b.baseOffset, b.lastOffset, (read b.wire).recordsCount⟩

namespace StoredBatch.Replicable

variable {codecs : Codecs} {b : StoredBatch}

section
variable (h : b.Replicable codecs)
include h

theorem base_le_last : b.baseOffset ≤ b.lastOffset := by
  have := length_pos_iff.2 h.nonempty
  have := h.count
  omega

theorem planFrom_append :
    ReplicaFetcher.planFrom (fuel + 1) pos cursor (b.wire ++ rest) =
      if last b < cursor then
        (ReplicaFetcher.planFrom fuel (pos + b.wire.length) cursor rest).map (.skip b.frame :: ·)
      else if base b = cursor then
        (ReplicaFetcher.planFrom fuel (pos + b.wire.length) (last b + 1) rest).map (.apply b.frame :: ·)
      else if base b < cursor then .error (.straddle cursor (base b) (last b))
      else .error (.gap cursor (base b)) := by
  have hread : read (b.wire ++ rest) = read b.wire :=
    read_eq_of_take_eq (take_append_of_le_length h.length_wire)
  have hlen := h.length_wire
  have hbatch := h.batchLength
  have hlast := h.lastOffset
  have hle := h.base_le_last
  have hsize : 12 + (read b.wire).batchLength.toNat = b.wire.length := by omega
  have happend : (b.wire ++ rest).length = b.wire.length + rest.length := length_append
  rw [ReplicaFetcher.planFrom, if_neg (by omega)]
  dsimp only
  rw [hread, hsize, if_neg (by omega), if_neg (by omega), if_neg (not_not.2 h.magic),
    if_neg (by omega), h.baseOffset, hlast, take_left, drop_left]
  rfl

theorem planFrom_take (hcut : cut < b.wire.length) :
    ReplicaFetcher.planFrom fuel pos cursor (b.wire.take cut) = .ok [] := by
  have hlength : (b.wire.take cut).length = cut := length_take_of_le (le_of_lt hcut)
  cases fuel with
  | zero => rfl
  | succ fuel =>
  rw [ReplicaFetcher.planFrom]
  split
  · rfl
  have hread : read (b.wire.take cut) = read b.wire := by
    apply read_eq_of_take_eq
    rw [take_take, min_eq_left (by omega)]
  have hbatch := h.batchLength
  rw [hread, if_neg (by omega), if_pos (by omega)]

theorem applyCanonicalBatch_eq (log : List StoredBatch) :
    ReplicaFetcher.applyCanonicalBatch log b.canonical = (log ++ [b], b.lastOffset + 1) := by
  have hcount := h.count
  have hnext : b.canonical.baseOffset + (b.canonical.records.length : Int) = b.lastOffset + 1 := by
    rw [h.canonical_base]
    omega
  rw [ReplicaFetcher.applyCanonicalBatch, if_neg h.nonempty, hnext, h.canonical_base]
  simp

end

end StoredBatch.Replicable

namespace ReplicaFetcher

variable {codecs : Codecs} {bs : List StoredBatch}

/-- The batches of a response that arrived whole when it was cut after `cut` bytes. -/
def whole : Nat → List StoredBatch → List StoredBatch
  | _, [] => []
  | cut, b :: bs => if b.wire.length ≤ cut then b :: whole (cut - b.wire.length) bs else []

theorem prefix_whole (cut : Nat) (bs : List StoredBatch) : whole cut bs <+: bs := by
  induction bs generalizing cut with
  | nil => exact nil_prefix
  | cons b bs ih =>
    rw [whole]
    split
    · exact cons_prefix_cons.2 ⟨rfl, ih _⟩
    · exact nil_prefix

section
variable (hbs : ∀ b ∈ bs, b.Replicable codecs)
include hbs

/-- Batches that continue the log: the plan is to append those that arrived whole. -/
theorem planFrom_wires (hcontiguous : ContiguousFrom cursor bs) (hfuel : ((bs.flatMap (·.wire)).take cut).length ≤ fuel) :
    planFrom fuel pos cursor ((bs.flatMap (·.wire)).take cut) =
      .ok ((whole cut bs).map fun b => .apply b.frame) := by
  induction bs generalizing fuel pos cut cursor with
  | nil =>
    rw [flatMap_nil, take_nil]
    cases fuel with
    | zero | succ => rfl
  | cons b bs ih =>
    obtain ⟨hb, hbs⟩ := forall_mem_cons.1 hbs
    obtain ⟨rfl, hle, hrest⟩ := hcontiguous
    rw [flatMap_cons] at hfuel ⊢
    rw [whole]
    split
    case isTrue hcut =>
      rw [take_append, take_of_length_le hcut] at hfuel ⊢
      have hlen := hb.length_wire
      rw [length_append] at hfuel
      cases fuel with
      | zero => omega
      | succ fuel =>
        rw [hb.planFrom_append, if_neg (not_lt.2 hle), if_pos rfl, ih hbs hrest (by omega)]
        rfl
    case isFalse hcut =>
      rw [take_append_of_le_length (by omega), hb.planFrom_take (by omega)]
      rfl

theorem applyActions_frames (log : List StoredBatch) (leo : Int) :
    applyActions codecs log leo (bs.map fun b => .apply b.frame) =
      (log ++ bs, .ok (endFrom leo bs)) := by
  induction bs generalizing log leo with
  | nil => rw [map_nil, applyActions, append_nil, endFrom]
  | cons b bs ih =>
    obtain ⟨hb, hbs⟩ := forall_mem_cons.1 hbs
    rw [map_cons, applyActions, show b.frame.wire = b.wire from rfl, hb.decodes]
    dsimp only
    rw [hb.applyCanonicalBatch_eq, ih hbs, append_assoc]
    rfl

/-- A response made of replicable batches that continue the log appends the batches that arrived
whole. -/
theorem applyFetchedRecords_wires (hcontiguous : ContiguousFrom leo bs) (log : List StoredBatch) (cut : Nat) :
    applyFetchedRecords codecs log ((bs.flatMap (·.wire)).take cut) leo =
      (log ++ whole cut bs, .ok (endFrom leo (whole cut bs))) := by
  rw [applyFetchedRecords, planBatches, planFrom_wires hbs hcontiguous (le_refl _)]
  exact applyActions_frames (fun b hb => hbs b ((prefix_whole cut bs).subset hb)) log leo

end

end ReplicaFetcher

end ChronikStream
