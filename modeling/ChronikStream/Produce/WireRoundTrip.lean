import ChronikStream.Produce.RecordBatch

/-!
# The first batch of a byte string, stored and served

`from_kafka_batch` keeps the bytes that `batch_length` declares and decodes the records from
everything behind the header. The two readings agree where the batch stands alone (`StandsAlone`).
That uncompressed records do rests on their reads being local (`ByteReader.Local`): a read that
succeeds does the same with more bytes behind.
-/

namespace ChronikStream

open Bytes RecordBatchHeader
open List hiding count
open Option (map_eq_some_iff map_some bind_some bind_eq_some_iff)

/-! ## Reads look no further than they consume -/

namespace ByteReader

variable {α : Type}

/-- A read that succeeds does the same with more bytes behind, and leaves them. -/
def Local (read : ByteReader α) : Prop :=
  ∀ ⦃bytes a rest⦄, read bytes = some (a, rest) →
    ∀ more, read (bytes ++ more) = some (a, rest ++ more)

theorem Local.bind {read : ByteReader α} {next : α → ByteReader γ} (h : Local read)
    (hnext : ∀ a, Local (next a)) : Local (read >>= next) := by
  intro bytes b rest hrun more
  obtain ⟨a, middle, hread, hrest⟩ := bind_eq_some hrun
  have hmore : (read (bytes ++ more)).bind (fun x => next x.1 x.2) = some (b, rest ++ more) := by
    rw [h hread more]
    exact hnext a hrest more
  exact hmore

theorem local_pure (a : α) : Local (pure a : ByteReader α) := by
  intro bytes b rest h more
  cases h
  rfl

theorem local_guard (p : Prop) [Decidable p] : Local (guard p) := by
  unfold guard
  split
  · exact local_pure _
  · intro bytes b rest h
    cases h

theorem local_lift (x : Option α) : Local (liftM x : ByteReader α) := by
  intro bytes b rest h more
  cases x with
  | none => cases h
  | some a =>
    cases h
    rfl

theorem local_exact (n : Nat) : Local (exact n) := by
  intro bytes a rest h more
  unfold exact at h ⊢
  split at h <;> cases h
  rename_i hlen
  rw [if_neg (by rw [length_append]; omega), take_append_of_le_length (not_lt.1 hlen),
    drop_append_of_le_length (not_lt.1 hlen)]

theorem varintFrom_append
    (h : varintFrom bits shift bytes = some (value, rest)) (more : List UInt8) :
    varintFrom bits shift (bytes ++ more) = some (value, rest ++ more) := by
  induction bytes generalizing shift value with
  | nil => cases h
  | cons b bytes ih =>
    rw [varintFrom] at h
    rw [cons_append, varintFrom]
    split at h
    case isTrue hlast =>
      cases h
      rw [if_pos hlast]
    case isFalse hlast =>
    rw [if_neg hlast]
    obtain ⟨hbits, h⟩ := Option.ite_none_left_eq_some.1 h
    obtain ⟨x, hx, heq⟩ := map_eq_some_iff.1 h
    cases heq
    rw [if_neg hbits, ih hx]
    rfl

theorem local_varint (bits : Nat) : Local (varint bits) := by
  intro bytes i rest h more
  obtain ⟨x, hx, heq⟩ := map_eq_some_iff.1 h
  cases heq
  rw [varint, varintFrom_append hx]
  rfl

theorem local_nullable (length : Int) : Local (nullable length) := by
  unfold nullable
  split
  · exact (local_exact _).bind fun _ => local_pure _
  · exact local_pure _

theorem Local.times {read : ByteReader α} (h : Local read) (n : Nat) : Local (times read n) := by
  induction n with
  | zero => exact local_pure _
  | succ n ih => exact h.bind fun _ => ih.bind fun _ => local_pure _

end ByteReader

open ByteReader in
theorem local_decodeRecordHeader : Local decodeRecordHeader :=
  (local_varint 32).bind fun _ => (local_guard _).bind fun _ => (local_exact _).bind fun _ =>
    (local_lift _).bind fun _ => (local_varint 32).bind fun _ => (local_guard _).bind fun _ =>
      (local_nullable _).bind fun _ => local_pure _

open ByteReader in
theorem local_decodeRecord : Local decodeRecord := by
  refine (local_varint 32).bind fun _ => (local_exact 1).bind fun _ => ?_
  refine (local_varint 64).bind fun _ => (local_varint 32).bind fun _ => ?_
  refine (local_varint 32).bind fun _ => (local_nullable _).bind fun _ => ?_
  refine (local_varint 32).bind fun _ => (local_nullable _).bind fun _ => ?_
  refine (local_varint 32).bind fun _ => (local_guard _).bind fun _ => ?_
  exact (local_decodeRecordHeader.times _).bind fun _ => local_pure _

theorem decodeRecordsFrom_done (fuel recordsRead : Nat) (data : List UInt8) :
    decodeRecordsFrom recordsRead fuel recordsRead data = some [] := by
  cases fuel with
  | zero => rfl
  | succ fuel => rw [decodeRecordsFrom, if_pos (.inr ⟨Int.natCast_nonneg _, le_refl _⟩)]

/-- A loop that reads all the `count` records does not get to the bytes behind them. -/
theorem decodeRecordsFrom_append (h : decodeRecordsFrom count fuel recordsRead data = some records)
    (hcount : (recordsRead + records.length : Nat) = count) (hfuel : (data ++ more).length ≤ fuel') :
    decodeRecordsFrom count fuel' recordsRead (data ++ more) = some records := by
  induction fuel generalizing fuel' recordsRead data records with
  | zero =>
    cases h
    rw [← hcount]
    exact decodeRecordsFrom_done _ _ _
  | succ fuel ih =>
    rw [decodeRecordsFrom] at h
    split at h
    case isTrue =>
      cases h
      rw [← hcount]
      exact decodeRecordsFrom_done _ _ _
    case isFalse hmore =>
    obtain ⟨⟨r, rest⟩, hr, hrest⟩ := bind_eq_some_iff.1 h
    obtain ⟨rs, hrs, rfl⟩ := map_eq_some_iff.1 hrest
    dsimp only at hrs
    have hlt := decodeRecord_lt hr
    rw [length_append] at hfuel
    rw [length_cons] at hcount
    obtain ⟨fuel', rfl⟩ := Nat.exists_eq_add_one.2 (by omega : 0 < fuel')
    have hgo : ¬ (data ++ more = [] ∨ (0 ≤ count ∧ count ≤ recordsRead)) := by
      rw [append_eq_nil_iff]
      rintro (⟨rfl, -⟩ | ⟨-, hle⟩)
      · exact hmore (.inl rfl)
      · omega
    rw [decodeRecordsFrom, if_neg hgo, local_decodeRecord hr more, bind_some,
      ih hrs (by omega) (by rw [length_append]; omega)]
    rfl

theorem decodeRecords_append
    (h : decodeRecords data count = some records) (hcount : records.length = count)
    (more : List UInt8) : decodeRecords (data ++ more) count = some records :=
  decodeRecordsFrom_append h (by rw [zero_add, hcount]) (le_refl _)

theorem decodeRecordsFrom_cons (h : decodeRecordsFrom count fuel recordsRead data = some records)
    (hdata : data ≠ []) (hfuel : data.length ≤ fuel) (hcount : count < 0 ∨ recordsRead < count) :
    ∃ fuel' r rest tail, decodeRecord data = some (r, rest) ∧
      decodeRecordsFrom count fuel' (recordsRead + 1) rest = some tail ∧ records = r :: tail ∧
      rest.length ≤ fuel' ∧ fuel = fuel' + 1 := by
  have hpos := length_pos_iff.2 hdata
  obtain ⟨fuel, rfl⟩ := Nat.exists_eq_add_one.2 (by omega : 0 < fuel)
  rw [decodeRecordsFrom, if_neg (by rintro (rfl | hle) <;> [exact hdata rfl; omega])] at h
  obtain ⟨⟨r, rest⟩, hr, hrest⟩ := bind_eq_some_iff.1 h
  obtain ⟨tail, htail, rfl⟩ := map_eq_some_iff.1 hrest
  have hlt := decodeRecord_lt hr
  exact ⟨fuel, r, rest, tail, hr, htail, rfl, by omega, rfl⟩

inductive TimestampType where
  | createTime
  | logAppendTime
  deriving DecidableEq

/-- The type in bit 3 of the attributes. -/
def TimestampType.fromAttributes (attributes : Nat) : TimestampType :=
  if attributes.testBit 3 then .logAppendTime else .createTime

/-- What a canonical record copies out of the header, besides the base offset. -/
structure BatchFields where
  partitionLeaderEpoch : Int
  producerId : Int
  producerEpoch : Int
  baseSequence : Int
  isTransactional : Bool
  isControl : Bool
  compression : CompressionType
  timestampType : TimestampType
  baseTimestamp : Int
  maxTimestamp : Int
  deriving DecidableEq

/-- The batch-level part of `from_kafka_record_batch`. -/
def RecordBatchHeader.fields (header : RecordBatchHeader) : BatchFields where
  partitionLeaderEpoch := header.partitionLeaderEpoch
  producerId := header.producerId
  producerEpoch := header.producerEpoch
  baseSequence := header.baseSequence
  isTransactional := header.attributes.testBit 4
  isControl := header.attributes.testBit 5
  compression := .fromAttributes header.attributes
  timestampType := .fromAttributes header.attributes
  baseTimestamp := header.baseTimestamp
  maxTimestamp := header.maxTimestamp

structure CanonicalBatch where
  canonical : CanonicalRecord
  fields : BatchFields
  deriving DecidableEq

namespace CanonicalBatch

def fromKafkaBatch (codecs : Codecs) (wireBytes : List UInt8) : Option CanonicalBatch :=
  (KafkaRecordBatch.decode codecs wireBytes).bind fun (batch, _) =>
    (CanonicalRecord.fromKafkaBatch codecs wireBytes).map (⟨·, batch.header.fields⟩)

/-- `to_kafka_batch`, which reads none of the header fields where the original bytes are there. -/
def toKafkaBatch (c : CanonicalBatch) : List UInt8 := c.canonical.toKafkaBatch

end CanonicalBatch

open CanonicalBatch (fromKafkaBatch)

/-! ## The first batch -/

def firstBatchSize (w : List UInt8) : Nat := 12 + (read w).batchLength.toNat

section
variable (hmagic : (read w).magic = 2)
include hmagic

variable (hbatchLength : 49 ≤ (read w).batchLength)
include hbatchLength

omit hmagic in
theorem size_le : 61 ≤ firstBatchSize w := by
  rw [firstBatchSize]
  omega

/-- A batch of at least a header's length, all of it there: its records decide what it decodes to.
-/
theorem decode_eq_map (hsize : firstBatchSize w ≤ w.length) :
    KafkaRecordBatch.decode codecs w = (codecs.recordsOf (read w) (w.drop 61)).map
      fun records => (⟨read w, records⟩, firstBatchSize w) := by
  have hbound := size_le hbatchLength
  have hlt : (read w).batchLength < 2 ^ 31 :=
    ofBeInt_lt_of_length (length_slice (by omega))
  have husize : asUsize (12 + (read w).batchLength) = firstBatchSize w := by
    rw [asUsize, firstBatchSize]
    omega
  rw [KafkaRecordBatch.decode, if_neg (by omega), if_neg (not_isLegacy hmagic)]
  dsimp only
  rw [husize, if_neg (by omega), if_neg (not_not.2 hmagic), if_neg (by omega)]

end

namespace WireRoundTrip

/-- Strips the byte that `compress` puts in front. -/
def stripMark : List UInt8 → Option (List UInt8)
  | 0 :: bytes => some bytes
  | _ => none

def marked : Codecs := ⟨stripMark, stripMark, stripMark, stripMark, fun _ => none⟩

def mark : CompressionType → List UInt8 → List UInt8
  | .none, x => x
  | _, x => 0 :: x

theorem decompress_mark (compression : CompressionType) (x : List UInt8) :
    marked.decompress compression (mark compression x) = some x := by
  cases compression with
  | none | gzip | lz4 | zstd => rfl
  | snappy =>
  -- the mark is not the first byte of a Xerial stream
  rw [mark, Codecs.decompress, if_neg]
  · rfl
  · rintro ⟨-, hheader⟩
    exact absurd (cons.inj hheader).1 (by decide)
  · exact CompressionType.noConfusion

/-- A record with neither key nor value, at an offset delta below 64. -/
def record (offsetDelta : Nat) : List UInt8 := [12, 0, 0, 2 * UInt8.ofNat offsetDelta, 1, 1, 0]

/-- A v2 batch with one record, whose header counts `recordsCount`. -/
def batch (recordsCount : Int) : List UInt8 :=
  beInt 8 0 ++ beInt 4 (49 + (record 0).length) ++ beInt 4 (-1) ++ [2] ++ beInt 4 0 ++ beInt 2 0 ++
    beInt 4 0 ++ beInt 8 0 ++ beInt 8 0 ++ beInt 8 (-1) ++ beInt 2 (-1) ++ beInt 4 (-1) ++
    beInt 4 recordsCount ++ record 0

end WireRoundTrip

open WireRoundTrip

end ChronikStream
