import ChronikStream.Txn.ReadCommitted
import Mathlib.Data.Option.Basic

/-!
# The bytes of a record batch

`KafkaRecordBatch::decode` reads the 61 bytes of the v2 header and then the records section, which
it takes to be everything behind the header. It never compares the number of records with
`last_offset_delta`. Fewer than 17 bytes are a batch without records. The compression libraries and
the older formats are the fields of `Codecs`. `produceToPartition` chooses the offsets and the bytes
of a batch.
-/

namespace ChronikStream

open Bytes List

/-! ## Reading from a cursor -/

/-- A read that consumes a part of the bytes, or fails. -/
abbrev ByteReader (α : Type) := StateT (List UInt8) Option α

namespace ByteReader

/-- The groups of 7 bits of `decode_varint` and `decode_varlong`, from bit `shift` on. -/
def varintFrom (bits : Nat) : Nat → List UInt8 → Option (Nat × List UInt8)
  | _, [] => none
  | shift, b :: bs =>
    let group := b.toNat % 128 * 2 ^ shift % 2 ^ bits
    if b.toNat < 128 then some (group, bs)
    else if bits ≤ shift + 7 then none
    else (varintFrom bits (shift + 7) bs).map fun x => (group + x.1, x.2)

/-- The zigzag encoding of an integer, undone. -/
def unzigzag (v : Nat) : Int :=
  if v % 2 = 0 then (v / 2 : Nat) else -(v / 2 : Nat) - 1

/-- `decode_varint` at 32 bits, `decode_varlong` at 64. -/
def varint (bits : Nat) : ByteReader Int :=
  fun bytes => (varintFrom bits 0 bytes).map fun x => (unzigzag x.1, x.2)

def exact (n : Nat) : ByteReader (List UInt8) :=
  fun bytes => if bytes.length < n then none else some (bytes.take n, bytes.drop n)

/-- A string of the given length, absent where the length is negative. -/
def nullable (length : Int) : ByteReader (Option (List UInt8)) :=
  if 0 ≤ length then do return some (← exact length.toNat) else return none

def times {α : Type} (read : ByteReader α) : Nat → ByteReader (List α)
  | 0 => return []
  | n + 1 => do
    let a ← read
    let as ← times read n
    return a :: as

/-! ### What a read leaves -/

variable {α : Type}

/-- A read never leaves more bytes than it found. -/
def Shrinks (read : ByteReader α) : Prop :=
  ∀ ⦃bytes a rest⦄, read bytes = some (a, rest) → rest.length ≤ bytes.length

theorem bind_eq_some {read : ByteReader α} {next : α → ByteReader β}
    (h : (read >>= next) bytes = some (b, rest)) :
    ∃ a middle, read bytes = some (a, middle) ∧ next a middle = some (b, rest) := by
  obtain ⟨⟨a, middle⟩, hread, hnext⟩ := Option.bind_eq_some_iff.1 h
  exact ⟨a, middle, hread, hnext⟩

theorem Shrinks.bind {read : ByteReader α} {next : α → ByteReader β} (h : Shrinks read)
    (hnext : ∀ a, Shrinks (next a)) : Shrinks (read >>= next) := by
  intro bytes b rest hrun
  obtain ⟨a, middle, hread, hrest⟩ := bind_eq_some hrun
  exact le_trans (hnext a hrest) (h hread)

theorem shrinks_pure (a : α) : Shrinks (pure a : ByteReader α) := by
  intro bytes b rest h
  cases h
  exact le_refl _

theorem shrinks_guard (p : Prop) [Decidable p] : Shrinks (guard p) := by
  intro bytes b rest h
  unfold guard at h
  split at h
  · exact shrinks_pure _ h
  · cases h

theorem shrinks_lift (x : Option α) : Shrinks (liftM x : ByteReader α) := by
  intro bytes b rest h
  cases x with
  | none => cases h
  | some a =>
    cases h
    exact le_refl _

theorem shrinks_exact (n : Nat) : Shrinks (exact n) := by
  intro bytes a rest h
  unfold exact at h
  split at h
  · cases h
  · cases h
    exact (drop_sublist n bytes).length_le

theorem varintFrom_lt
    (h : varintFrom bits shift bytes = some (value, rest)) : rest.length < bytes.length := by
  induction bytes generalizing shift value with
  | nil => cases h
  | cons b bytes ih =>
    rw [varintFrom] at h
    split at h
    · cases h
      exact Nat.lt_succ_self _
    split at h
    · cases h
    obtain ⟨x, hx, heq⟩ := Option.map_eq_some_iff.1 h
    cases heq
    exact Nat.lt_succ_of_lt (ih hx)

theorem varint_lt (h : varint bits bytes = some (i, rest)) : rest.length < bytes.length := by
  obtain ⟨x, hx, heq⟩ := Option.map_eq_some_iff.1 h
  cases heq
  exact varintFrom_lt hx

theorem shrinks_varint (bits : Nat) : Shrinks (varint bits) :=
  fun _ _ _ h => le_of_lt (varint_lt h)

theorem shrinks_nullable (length : Int) : Shrinks (nullable length) := by
  unfold nullable
  split
  · exact (shrinks_exact _).bind fun _ => shrinks_pure _
  · exact shrinks_pure _

theorem Shrinks.times {read : ByteReader α} (h : Shrinks read) (n : Nat) :
    Shrinks (times read n) := by
  induction n with
  | zero => exact shrinks_pure _
  | succ n ih => exact h.bind fun _ => ih.bind fun _ => shrinks_pure _

end ByteReader

/-! ## Records -/

structure RecordHeader where
  key : String
  value : Option (List UInt8)
  deriving DecidableEq

structure KafkaRecord where
  length : Int
  attributes : Int
  timestampDelta : Int
  offsetDelta : Int
  key : Option (List UInt8)
  value : Option (List UInt8)
  headers : List RecordHeader
  deriving DecidableEq

open ByteReader in
def decodeRecordHeader : ByteReader RecordHeader := do
  let keyLength ← varint 32
  guard (0 ≤ keyLength ∧ keyLength ≤ 10000)
  let keyBytes ← exact keyLength.toNat
  let key ← (String.fromUTF8? ⟨keyBytes.toArray⟩ : Option String)
  let valueLength ← varint 32
  guard (valueLength ≤ 1000000)
  let value ← nullable valueLength
  return ⟨key, value⟩

open ByteReader in
/-- One record: the body of the loop of `decode_records`. -/
def decodeRecord : ByteReader KafkaRecord := do
  let length ← varint 32
  let attributes ← exact 1
  let timestampDelta ← varint 64
  let offsetDelta ← varint 32
  let key ← nullable (← varint 32)
  let value ← nullable (← varint 32)
  let headersCount ← varint 32
  guard (0 ≤ headersCount ∧ headersCount ≤ 1000)
  let headers ← times decodeRecordHeader headersCount.toNat
  return ⟨length, ofBeInt attributes, timestampDelta, offsetDelta, key, value, headers⟩

open ByteReader in
theorem shrinks_decodeRecordHeader : Shrinks decodeRecordHeader :=
  (shrinks_varint 32).bind fun _ => (shrinks_guard _).bind fun _ => (shrinks_exact _).bind fun _ =>
    (shrinks_lift _).bind fun _ => (shrinks_varint 32).bind fun _ => (shrinks_guard _).bind fun _ =>
      (shrinks_nullable _).bind fun _ => shrinks_pure _

open ByteReader in
theorem decodeRecord_lt {data rest : List UInt8}
    (h : decodeRecord data = some (r, rest)) : rest.length < data.length := by
  obtain ⟨length, middle, hlength, hrest⟩ := bind_eq_some h
  refine lt_of_le_of_lt ?_ (varint_lt hlength)
  refine Shrinks.bind (shrinks_exact 1) (fun _ => ?_) hrest
  refine (shrinks_varint 64).bind fun _ => (shrinks_varint 32).bind fun _ => ?_
  refine (shrinks_varint 32).bind fun _ => (shrinks_nullable _).bind fun _ => ?_
  refine (shrinks_varint 32).bind fun _ => (shrinks_nullable _).bind fun _ => ?_
  refine (shrinks_varint 32).bind fun _ => (shrinks_guard _).bind fun _ => ?_
  exact (shrinks_decodeRecordHeader.times _).bind fun _ => shrinks_pure _

/-- The loop of `decode_records`. Every record takes at least one byte, so the number of bytes bounds
the number of rounds. -/
def decodeRecordsFrom (count : Int) : Nat → Nat → List UInt8 → Option (List KafkaRecord)
  | 0, _, _ => some []
  | fuel + 1, recordsRead, data =>
    if data = [] ∨ (0 ≤ count ∧ count ≤ recordsRead) then some []
    else (decodeRecord data).bind fun x =>
      (decodeRecordsFrom count fuel (recordsRead + 1) x.2).map (x.1 :: ·)

def decodeRecords (data : List UInt8) (count : Int) : Option (List KafkaRecord) :=
  decodeRecordsFrom count data.length 0 data

/-! ## Batches -/

inductive CompressionType where
  | none | gzip | snappy | lz4 | zstd
  deriving DecidableEq

/-- The codec in the low three bits of the attributes; numbers without a codec are read as none. -/
def CompressionType.fromAttributes (attributes : Nat) : CompressionType :=
  match attributes % 8 with
  | 1 => .gzip
  | 2 => .snappy
  | 3 => .lz4
  | 4 => .zstd
  | _ => .none

structure RecordBatchHeader where
  baseOffset : Int
  batchLength : Int
  partitionLeaderEpoch : Int
  magic : Int
  crc : Nat
  attributes : Nat
  lastOffsetDelta : Int
  baseTimestamp : Int
  maxTimestamp : Int
  producerId : Int
  producerEpoch : Int
  baseSequence : Int
  recordsCount : Int
  deriving DecidableEq

structure KafkaRecordBatch where
  header : RecordBatchHeader
  records : List KafkaRecord
  deriving DecidableEq

/-- What decoding takes from elsewhere: the decompression libraries and `decode_legacy_message_set`,
with the number of bytes it consumed. -/
structure Codecs where
  gunzip : List UInt8 → Option (List UInt8)
  unsnappy : List UInt8 → Option (List UInt8)
  unlz4 : List UInt8 → Option (List UInt8)
  unzstd : List UInt8 → Option (List UInt8)
  decodeLegacyMessageSet : List UInt8 → Option (KafkaRecordBatch × Nat)

/-- The blocks of a Xerial snappy stream, each behind its size. -/
def xerialBlocks (unsnappy : List UInt8 → Option (List UInt8)) :
    Nat → List UInt8 → Option (List UInt8)
  | 0, _ => some []
  | fuel + 1, bytes =>
    if bytes.length < 4 then some []
    else
      let blockSize := ofLe (bytes.take 4).reverse
      if blockSize = 0 ∨ bytes.length < 4 + blockSize then none
      else (unsnappy (slice bytes 4 blockSize)).bind fun block =>
        (xerialBlocks unsnappy fuel (bytes.drop (4 + blockSize))).map (block ++ ·)

def xerialHeader : List UInt8 := [0x82, 0x53, 0x4e, 0x41, 0x50, 0x50, 0x59, 0]

def Codecs.decompress (codecs : Codecs) : CompressionType → List UInt8 → Option (List UInt8)
  | .none, bytes => some bytes
  | .gzip, bytes => codecs.gunzip bytes
  | .snappy, bytes =>
    if 16 < bytes.length ∧ bytes.take 8 = xerialHeader then
      xerialBlocks codecs.unsnappy bytes.length (bytes.drop 16)
    else codecs.unsnappy bytes
  | .lz4, bytes => codecs.unlz4 bytes
  | .zstd, bytes => codecs.unzstd bytes

namespace RecordBatchHeader

/-- The fields of a v2 header at their positions. -/
def read (data : List UInt8) : RecordBatchHeader where
  baseOffset := ofBeInt (slice data 0 8)
  batchLength := ofBeInt (slice data 8 4)
  partitionLeaderEpoch := ofBeInt (slice data 12 4)
  magic := ofBeInt (slice data 16 1)
  crc := ofLe (slice data 17 4).reverse
  attributes := ofLe (slice data 21 2).reverse
  lastOffsetDelta := ofBeInt (slice data 23 4)
  baseTimestamp := ofBeInt (slice data 27 8)
  maxTimestamp := ofBeInt (slice data 35 8)
  producerId := ofBeInt (slice data 43 8)
  producerEpoch := ofBeInt (slice data 51 2)
  baseSequence := ofBeInt (slice data 53 4)
  recordsCount := ofBeInt (slice data 57 4)

theorem read_eq_of_take_eq (h : d.take 61 = e.take 61) : read d = read e := by
  have hslice : ∀ p n, p + n ≤ 61 → slice d p n = slice e p n :=
    fun p n hpn => slice_eq_of_take_eq h hpn
  simp (disch := decide) only [read, hslice]

/-- The header of the batch that fewer than 17 bytes decode to. -/
def empty : RecordBatchHeader where
  baseOffset := 0
  batchLength := 0
  partitionLeaderEpoch := -1
  magic := 2
  crc := 0
  attributes := 0
  lastOffsetDelta := 0
  baseTimestamp := 0
  maxTimestamp := 0
  producerId := -1
  producerEpoch := -1
  baseSequence := -1
  recordsCount := 0

end RecordBatchHeader

/-- The magic byte says that the bytes hold a message set of a format before v2. -/
def IsLegacy (data : List UInt8) : Prop :=
  17 ≤ data.length ∧ (slice data 16 1 = [0] ∨ slice data 16 1 = [1])
deriving Decidable

theorem not_isLegacy (hmagic : (RecordBatchHeader.read w).magic = 2) : ¬ IsLegacy w := by
  have hread : ofBeInt (slice w 16 1) = 2 := hmagic
  rintro ⟨-, h | h⟩
  · rw [h] at hread
    exact absurd hread (by decide)
  · rw [h] at hread
    exact absurd hread (by decide)

theorem length_of_magic (hmagic : (RecordBatchHeader.read w).magic = 2) : 17 ≤ w.length := by
  by_contra hshort
  have hnil : slice w 16 1 = [] := by
    rw [slice, drop_eq_nil_of_le (by omega), take_nil]
  have hread : ofBeInt (slice w 16 1) = 2 := hmagic
  rw [hnil] at hread
  exact absurd hread (by decide)

def Codecs.recordsOf (codecs : Codecs) (header : RecordBatchHeader) (recordsData : List UInt8) :
    Option (List KafkaRecord) :=
  (codecs.decompress (.fromAttributes header.attributes) recordsData).bind fun data =>
    decodeRecords data header.recordsCount

namespace KafkaRecordBatch

/-- The batch, and the number of bytes it occupies, computed in `usize`, where additions wrap. -/
def decode (codecs : Codecs) (data : List UInt8) : Option (KafkaRecordBatch × Nat) :=
  if data.length < 17 then some (⟨.empty, []⟩, 0)
  else if IsLegacy data then codecs.decodeLegacyMessageSet data
  else
    let header := RecordBatchHeader.read data
    let size := asUsize (12 + header.batchLength)
    if data.length < size then none
    else if header.magic ≠ 2 then none
    else if data.length < 61 then none
    else (codecs.recordsOf header (data.drop 61)).map fun records => (⟨header, records⟩, size)

theorem decode_eq_some (hlen : 17 ≤ data.length) (hv2 : ¬ IsLegacy data) :
    decode codecs data = some (batch, consumed) ↔
      consumed = asUsize (12 + (RecordBatchHeader.read data).batchLength) ∧
        consumed ≤ data.length ∧ 61 ≤ data.length ∧ (RecordBatchHeader.read data).magic = 2 ∧
        batch.header = RecordBatchHeader.read data ∧
        codecs.recordsOf batch.header (data.drop 61) = some batch.records := by
  obtain ⟨header, records⟩ := batch
  have hlen' : ¬ data.length < 17 := not_lt.2 hlen
  constructor
  · intro h
    rw [decode, if_neg hlen', if_neg hv2] at h
    dsimp only at h
    split at h
    · cases h
    split at h
    · cases h
    split at h
    · cases h
    obtain ⟨rs, hrs, heq⟩ := Option.map_eq_some_iff.1 h
    cases heq
    exact ⟨rfl, by omega, by omega, not_not.1 ‹_›, rfl, hrs⟩
  · rintro ⟨rfl, hsize, hheader, hmagic, rfl, hrs⟩
    rw [decode, if_neg hlen', if_neg hv2]
    rw [if_neg (not_lt.2 hsize), if_neg (not_not.2 hmagic), if_neg (not_lt.2 hheader), hrs]
    rfl

end KafkaRecordBatch

/-! ## Canonical records -/

/-- The bytes a batch arrived in, kept so that it is served as it was checksummed. -/
inductive OriginalWireFormat where
  | v1 (bytes : List UInt8)
  | v2 (bytes : List UInt8)
  deriving DecidableEq

/-- A record with its offset and timestamp. -/
structure CanonicalRecordEntry where
  offset : Int
  timestamp : Int
  key : Option (List UInt8)
  value : Option (List UInt8)
  headers : List RecordHeader
  attributes : Int
  deriving DecidableEq

/-- A record of a batch with this header. The sums are of 64-bit integers. -/
def CanonicalRecordEntry.ofRecord (header : RecordBatchHeader) (r : KafkaRecord) :
    CanonicalRecordEntry where
  offset := wrap 8 (header.baseOffset + r.offsetDelta)
  timestamp := wrap 8 (header.baseTimestamp + r.timestampDelta)
  key := r.key
  value := r.value
  headers := r.headers
  attributes := r.attributes

/-- A batch as the log stores it. The other header fields it keeps are copies of what the bytes
hold. -/
structure CanonicalRecord where
  baseOffset : Int
  records : List CanonicalRecordEntry
  wire : OriginalWireFormat
  deriving DecidableEq

/-- The offset fields of the messages of a v1 set, rewritten to `offsets`. -/
def updateV1MessagesetOffsets : List Int → List UInt8 → List UInt8
  | [], bytes => bytes
  | offset :: offsets, bytes =>
    if bytes.length ≤ 17 then bytes
    else
      let messageSize := ofBeInt (slice bytes 8 4)
      if messageSize ≤ 0 ∨ 10000000 < messageSize then bytes
      else if slice bytes 16 1 ≠ [1] ∧ slice bytes 16 1 ≠ [0] then bytes
      else
        (beInt 8 offset ++ bytes.drop 8).take (12 + messageSize.toNat) ++
          updateV1MessagesetOffsets offsets (bytes.drop (12 + messageSize.toNat))

namespace CanonicalRecord

def fromKafkaBatch (codecs : Codecs) (wireBytes : List UInt8) : Option CanonicalRecord :=
  (KafkaRecordBatch.decode codecs wireBytes).map fun (batch, consumed) =>
    { baseOffset := batch.header.baseOffset
      records := batch.records.map (.ofRecord batch.header)
      wire := if IsLegacy wireBytes then .v1 (wireBytes.take consumed)
        else .v2 (wireBytes.take consumed) }

/-- The offset of the last record, the base offset where there is none. -/
def lastOffset (c : CanonicalRecord) : Int :=
  (c.records.getLast?.map (·.offset)).getD c.baseOffset

def recalculateRecordOffsets (c : CanonicalRecord) : CanonicalRecord :=
  { c with records := c.records.mapIdx fun i r => { r with offset := c.baseOffset + i } }

/-- `to_kafka_batch`: the original bytes. -/
def toKafkaBatch (c : CanonicalRecord) : List UInt8 :=
  match c.wire with
  | .v2 bytes => bytes
  | .v1 bytes => updateV1MessagesetOffsets (c.records.map (·.offset)) bytes

end CanonicalRecord

/-! ## The produce path -/

/-- A WAL record of a partition: the offsets of its header and the batch. -/
structure StoredBatch where
  baseOffset : Int
  lastOffset : Int
  canonical : CanonicalRecord
  deriving DecidableEq

instance : OffsetRange StoredBatch := ⟨StoredBatch.baseOffset, StoredBatch.lastOffset⟩

/-- The log of a partition: what was appended, and the offset the next record gets. -/
structure StoredLog where
  batches : List StoredBatch
  nextOffset : Nat
  deriving DecidableEq

/-- The base offset written over the first 8 bytes, where it is not there already. -/
def withBaseOffset (base : Int) (data : List UInt8) : List UInt8 :=
  if ofBeInt (slice data 0 8) = base then data else beInt 8 base ++ data.drop 8

/-- `stamp_leader_epoch`: the epoch in every batch up to the first that is cut off or not v2. -/
def stampLeaderEpoch (epoch : Int) : Nat → List UInt8 → List UInt8
  | 0, wire => wire
  | fuel + 1, wire =>
    if wire.length < 23 then wire
    else
      let batchLength := ofBeInt (slice wire 8 4)
      if batchLength < 9 then wire
      else if wire.length < 12 + batchLength.toNat then wire
      else if ofBeInt (slice wire 16 1) ≠ 2 then wire
      else
        wire.take 12 ++ beInt 4 epoch ++ slice wire 16 (batchLength.toNat - 4) ++
          stampLeaderEpoch epoch fuel (wire.drop (12 + batchLength.toNat))

/-- The epoch is written between the length field and the magic byte of a batch, so the bytes before
and behind it stay. -/
theorem stampLeaderEpoch_frame (epoch : Int) (fuel : Nat) (wire : List UInt8) :
    (stampLeaderEpoch epoch fuel wire).length = wire.length ∧
      (stampLeaderEpoch epoch fuel wire).take 12 = wire.take 12 ∧
      slice (stampLeaderEpoch epoch fuel wire) 16 1 = slice wire 16 1 := by
  induction fuel generalizing wire with
  | zero => exact ⟨rfl, rfl, rfl⟩
  | succ fuel ih =>
    rw [stampLeaderEpoch]
    split
    · exact ⟨rfl, rfl, rfl⟩
    dsimp only
    split
    · exact ⟨rfl, rfl, rfl⟩
    split
    · exact ⟨rfl, rfl, rfl⟩
    split
    · exact ⟨rfl, rfl, rfl⟩
    generalize hn : (ofBeInt (slice wire 8 4)).toNat = n at *
    have hbody : (slice wire 16 (n - 4)).length = n - 4 := by
      rw [slice, length_take, length_drop]
      omega
    have htake : (wire.take 12).length = 12 := length_take_of_le (by omega)
    refine ⟨?_, ?_, ?_⟩
    · have := (ih (wire.drop (12 + n))).1
      simp only [length_append, htake, length_beInt, hbody, this, length_drop]
      omega
    · rw [append_assoc, append_assoc, take_left' htake]
    · have hfront : (wire.take 12 ++ beInt 4 epoch).length = 16 := by
        rw [length_append, htake, length_beInt]
      rw [slice, append_assoc (wire.take 12 ++ beInt 4 epoch), drop_left' hfront,
        take_append_of_le_length (by omega), slice, take_take, min_eq_left (by omega)]
      rfl

/-- `stamp_and_record_leader_epoch`: the bytes stay as they are while the partition has no epoch. -/
def stampAndRecordLeaderEpoch (epoch : Option Int) (wire : List UInt8) : List UInt8 :=
  match epoch with
  | some epoch => if 0 ≤ epoch then stampLeaderEpoch epoch wire.length wire else wire
  | none => wire

/-- The bytes of a batch that are stored at a base offset: `re_encoded_bytes`. -/
def reEncodedBytes (epoch : Option Int) (base : Int) (recordsData : List UInt8) : List UInt8 :=
  stampAndRecordLeaderEpoch epoch (withBaseOffset base recordsData)

/-- The offsets and bytes `produce_to_partition` gives a batch that it accepts, and the append;
`none` where it answers with an error. -/
def produceToPartition (codecs : Codecs) (epoch : Option Int) (log : StoredLog)
    (recordsData : List UInt8) : Option StoredLog := do
  guard (8 ≤ recordsData.length)
  let (tempBatch, _) ← KafkaRecordBatch.decode codecs recordsData
  let baseOffset := wrap 8 log.nextOffset
  let (kafkaBatch, _) ← KafkaRecordBatch.decode codecs (withBaseOffset baseOffset recordsData)
  let canonicalRecord ←
    CanonicalRecord.fromKafkaBatch codecs (reEncodedBytes epoch baseOffset recordsData)
  return {
    batches := log.batches ++ [{
      baseOffset := baseOffset
      lastOffset := baseOffset + kafkaBatch.records.length - 1
      -- the offsets of a v1 set other than the first are still the client's
      canonical := match canonicalRecord.wire with
        | .v1 _ => canonicalRecord.recalculateRecordOffsets
        | .v2 _ => canonicalRecord }]
    nextOffset := log.nextOffset + tempBatch.records.length }

theorem produceToPartition_eq_some (h : produceToPartition codecs epoch log data = some log') :
    8 ≤ data.length ∧ ∃ temp kafka c,
      KafkaRecordBatch.decode codecs data = some temp ∧
      KafkaRecordBatch.decode codecs (withBaseOffset (wrap 8 log.nextOffset) data) = some kafka ∧
      CanonicalRecord.fromKafkaBatch codecs (reEncodedBytes epoch (wrap 8 log.nextOffset) data) =
        some c ∧
      log' = ⟨log.batches ++ [⟨wrap 8 log.nextOffset,
        wrap 8 log.nextOffset + kafka.1.records.length - 1, match c.wire with
          | .v1 _ => c.recalculateRecordOffsets
          | .v2 _ => c⟩], log.nextOffset + temp.1.records.length⟩ := by
  simp only [produceToPartition, Option.bind_eq_bind, Option.bind_eq_some_iff] at h
  obtain ⟨_, hlen, temp, htemp, kafka, hkafka, c, hc, hlog⟩ := h
  exact ⟨(Option.guard_eq_some' _).1 hlen, temp, kafka, c, htemp, hkafka, hc,
    (Option.some.inj hlog).symm⟩

theorem length_withBaseOffset (h : 8 ≤ data.length) :
    (withBaseOffset base data).length = data.length := by
  unfold withBaseOffset
  split
  · rfl
  · rw [length_append, length_beInt, length_drop]
    omega

theorem drop_withBaseOffset (hn : 8 ≤ n) : (withBaseOffset base data).drop n = data.drop n := by
  unfold withBaseOffset
  split
  · rfl
  have hlen : (beInt 8 base).length ≤ n := by rwa [length_beInt]
  rw [drop_append, drop_of_length_le hlen, nil_append, drop_drop, length_beInt]
  congr 1
  omega

theorem baseOffset_withBaseOffset (h : Fits 8 base) :
    ofBeInt (slice (withBaseOffset base data) 0 8) = base := by
  unfold withBaseOffset
  split
  · assumption
  · rw [slice, drop_zero, take_left' (length_beInt 8 base), ofBeInt_beInt h]

/-- Beyond the base offset, the stored bytes differ from the client's in leader epochs only. -/
theorem reEncodedBytes_frame (epoch : Option Int) (hlen : 8 ≤ data.length) (hbase : Fits 8 base) :
    (reEncodedBytes epoch base data).length = data.length ∧
      ofBeInt (slice (reEncodedBytes epoch base data) 0 8) = base ∧
      slice (reEncodedBytes epoch base data) 16 1 = slice data 16 1 := by
  have hsame : (withBaseOffset base data).length = data.length ∧
      ofBeInt (slice (withBaseOffset base data) 0 8) = base ∧
      slice (withBaseOffset base data) 16 1 = slice data 16 1 :=
    ⟨length_withBaseOffset hlen, baseOffset_withBaseOffset hbase,
      congrArg (take 1) (drop_withBaseOffset (by decide))⟩
  unfold reEncodedBytes stampAndRecordLeaderEpoch
  split
  · split
    · obtain ⟨hlength, htake, hmagic⟩ := stampLeaderEpoch_frame _ _ (withBaseOffset base data)
      refine ⟨hlength.trans hsame.1, ?_, hmagic.trans hsame.2.2⟩
      rw [slice_eq_of_take_eq htake (by decide)]
      exact hsame.2.1
    · exact hsame
  · exact hsame

theorem decode_withBaseOffset (hlen : 8 ≤ data.length) (hv2 : ¬ IsLegacy data)
    (hx : KafkaRecordBatch.decode codecs data = some x)
    (hy : KafkaRecordBatch.decode codecs (withBaseOffset base data) = some y) :
    y.1.records = x.1.records := by
  have hlength : (withBaseOffset base data).length = data.length := length_withBaseOffset hlen
  have hslice : ∀ p n, 8 ≤ p → slice (withBaseOffset base data) p n = slice data p n :=
    fun p n hp => congrArg (take n) (drop_withBaseOffset hp)
  by_cases hshort : data.length < 17
  · rw [KafkaRecordBatch.decode, if_pos hshort] at hx
    rw [KafkaRecordBatch.decode, if_pos (by omega)] at hy
    cases hx
    cases hy
    rfl
  · have hv2' : ¬ IsLegacy (withBaseOffset base data) := by
      rwa [IsLegacy, hlength, hslice 16 1 (by decide)]
    obtain ⟨-, -, -, -, hheader, hrecords⟩ := (KafkaRecordBatch.decode_eq_some (by omega) hv2).1 hx
    obtain ⟨-, -, -, -, hheader', hrecords'⟩ :=
      (KafkaRecordBatch.decode_eq_some (by omega) hv2').1 hy
    have hsection : codecs.recordsOf y.1.header ((withBaseOffset base data).drop 61) =
        codecs.recordsOf x.1.header (data.drop 61) := by
      rw [drop_withBaseOffset (by decide), hheader, hheader', Codecs.recordsOf, Codecs.recordsOf]
      simp only [RecordBatchHeader.read, hslice 21 2 (by decide), hslice 57 4 (by decide)]
    exact Option.some.inj (hrecords'.symm.trans (hsection.trans hrecords))

end ChronikStream
