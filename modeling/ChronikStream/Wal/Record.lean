import ChronikStream.Lib.Bytes

/-!
# The V2 record of the write-ahead log

`toBytes` is the serialisation of `chronik-wal/src/record.rs` and `parseRecord` the parser of
`segment_index.rs`. A `WellFormed` record is read back from any byte string that starts with its
bytes (`parseRecord_toBytes`), and what the parser finds depends on these only
(`parseRecord_eq_of_take_eq`).
-/

namespace ChronikStream

open Bytes List

def walMagic : Nat := 0xCA7E

def walVersionV2 : Nat := 2

/-- A V2 record, without the constants of the format. No V2 read verifies the checksum. -/
structure WalRecord where
  flags : UInt8
  length : Nat
  crc32 : Nat
  topic : String
  partition : Int
  canonicalData : List UInt8
  baseOffset : Int
  lastOffset : Int
  recordCount : Int
  deriving DecidableEq

namespace WalRecord

def calculateLength (topic : String) (canonicalData : List UInt8) : Nat :=
  (2 + topic.utf8ByteSize + 4 + 4 + canonicalData.length + 8 + 8 + 4) % 2 ^ 32

/-- The constructor of V2 records; `crc` stands for the CRC-32 of the other fields. -/
def newV2 (crc : Nat) (topic : String) (partition : Int) (canonicalData : List UInt8)
    (baseOffset lastOffset recordCount : Int) : WalRecord where
  flags := 0
  length := calculateLength topic canonicalData
  crc32 := crc
  topic := topic
  partition := partition
  canonicalData := canonicalData
  baseOffset := baseOffset
  lastOffset := lastOffset
  recordCount := recordCount

def heapSize (r : WalRecord) : Nat :=
  64 + r.topic.utf8ByteSize + r.canonicalData.length

def topicBytes (r : WalRecord) : List UInt8 :=
  r.topic.toUTF8.data.toList

def fields (r : WalRecord) : List (List UInt8) :=
  [le 2 walMagic, le 1 walVersionV2, [r.flags], le 4 r.length, le 4 r.crc32,
    le 2 r.topic.utf8ByteSize, r.topicBytes, leInt 4 r.partition,
    le 4 r.canonicalData.length, r.canonicalData,
    leInt 8 r.baseOffset, leInt 8 r.lastOffset, leInt 4 r.recordCount]

def toBytes (r : WalRecord) : List UInt8 :=
  r.fields.flatten

@[simp] theorem length_topicBytes (r : WalRecord) : r.topicBytes.length = r.topic.utf8ByteSize :=
  rfl

theorem length_toBytes (r : WalRecord) :
    r.toBytes.length = 42 + r.topic.utf8ByteSize + r.canonicalData.length := by
  simp only [toBytes, fields, flatten_cons, flatten_nil, length_append, length_le,
    length_leInt, length_cons, length_nil, length_topicBytes]
  omega

/-- What `newV2` gives for parts that fit their fields. -/
@[mk_iff]
structure WellFormed (r : WalRecord) : Prop where
  length_eq : r.length = 30 + r.topic.utf8ByteSize + r.canonicalData.length
  length_fits : r.length < 2 ^ 32
  crc_fits : r.crc32 < 2 ^ 32
  topic_fits : r.topic.utf8ByteSize < 2 ^ 16
  partition_fits : Fits 4 r.partition
  base_fits : Fits 8 r.baseOffset
  last_fits : Fits 8 r.lastOffset
  count_fits : Fits 4 r.recordCount

instance (r : WalRecord) : Decidable r.WellFormed := decidable_of_iff _ (wellFormed_iff r).symm

end WalRecord

/-! ## Parsing -/

/-- One record's shape within a buffer. Ranges are `(start, end)`. -/
structure RecordLayout where
  totalLen : Nat
  topic : Nat × Nat
  payload : Nat × Nat
  partition : Int
  baseOffset : Int
  lastOffset : Int
  recordCount : Int
  flags : UInt8
  length : Nat
  crc32 : Nat
  deriving DecidableEq

inductive Parsed where
  | record (layout : RecordLayout)
  | incomplete
  | invalid
  deriving DecidableEq

/-- What the header at the start of a buffer says about the parts of a record. -/
def layoutAt (buf : List UInt8) : RecordLayout :=
  let topicLen := ofLe (slice buf 12 2)
  let payloadAt := 14 + topicLen + 8
  let metaAt := payloadAt + ofLe (slice buf (14 + topicLen + 4) 4)
  { totalLen := metaAt + 20
    topic := (14, 14 + topicLen)
    payload := (payloadAt, metaAt)
    partition := ofLeInt (slice buf (14 + topicLen) 4)
    baseOffset := ofLeInt (slice buf metaAt 8)
    lastOffset := ofLeInt (slice buf (metaAt + 8) 8)
    recordCount := ofLeInt (slice buf (metaAt + 16) 4)
    flags := (slice buf 3 1).headD 0
    length := ofLe (slice buf 4 4)
    crc32 := ofLe (slice buf 8 4) }

/-- One V2 record at the start of `buf`. Its size comes from the inner length fields; `length` is
only checked not to be zero. -/
def parseRecord (buf : List UInt8) : Parsed :=
  if buf.length < 14 then .incomplete
  else if ofLe (slice buf 0 2) ≠ walMagic ∨ ofLe (slice buf 2 1) ≠ walVersionV2 ∨
      ofLe (slice buf 4 4) = 0 then .invalid
  else
    let topicLen := ofLe (slice buf 12 2)
    let payloadAt := 14 + topicLen + 8
    if buf.length < payloadAt then .incomplete
    else
      let metaAt := payloadAt + ofLe (slice buf (14 + topicLen + 4) 4)
      if buf.length < metaAt + 20 then .incomplete else .record (layoutAt buf)

/-- Materialise the record a layout describes. -/
def RecordLayout.toRecord (l : RecordLayout) (buf : List UInt8) : Option WalRecord :=
  (String.fromUTF8? ⟨(slice buf l.topic.1 (l.topic.2 - l.topic.1)).toArray⟩).map fun topic =>
    { flags := l.flags
      length := l.length
      crc32 := l.crc32
      topic := topic
      partition := l.partition
      canonicalData := slice buf l.payload.1 (l.payload.2 - l.payload.1)
      baseOffset := l.baseOffset
      lastOffset := l.lastOffset
      recordCount := l.recordCount }

/-- `from_bytes` on a V2 record. It reads the same parts, and does not look at `length`. -/
def WalRecord.fromBytes (data : List UInt8) : Option WalRecord :=
  if data.length < 14 ∨ ofLe (slice data 0 2) ≠ walMagic ∨ ofLe (slice data 2 1) ≠ walVersionV2 then none
  else
    let topicLen := ofLe (slice data 12 2)
    let payloadAt := 14 + topicLen + 8
    if data.length < payloadAt then none
    else
      let payloadLen := ofLe (slice data (14 + topicLen + 4) 4)
      let metaAt := payloadAt + payloadLen
      if data.length < metaAt + 20 then none
      else
        (String.fromUTF8? ⟨(slice data 14 topicLen).toArray⟩).map fun topic =>
          { flags := (slice data 3 1).headD 0
            length := ofLe (slice data 4 4)
            crc32 := ofLe (slice data 8 4)
            topic := topic
            partition := ofLeInt (slice data (14 + topicLen) 4)
            canonicalData := slice data payloadAt payloadLen
            baseOffset := ofLeInt (slice data metaAt 8)
            lastOffset := ofLeInt (slice data (metaAt + 8) 8)
            recordCount := ofLeInt (slice data (metaAt + 16) 4) }

/-- The layout of a record at the start of a buffer. -/
def WalRecord.layout (r : WalRecord) : RecordLayout where
  totalLen := 42 + r.topic.utf8ByteSize + r.canonicalData.length
  topic := (14, 14 + r.topic.utf8ByteSize)
  payload := (22 + r.topic.utf8ByteSize, 22 + r.topic.utf8ByteSize + r.canonicalData.length)
  partition := r.partition
  baseOffset := r.baseOffset
  lastOffset := r.lastOffset
  recordCount := r.recordCount
  flags := r.flags
  length := r.length
  crc32 := r.crc32

theorem WalRecord.layout_totalLen (r : WalRecord) : r.layout.totalLen = r.toBytes.length :=
  r.length_toBytes.symm

theorem parseRecord_eq_record_iff : parseRecord d = .record l ↔
      (ofLe (slice d 0 2) = walMagic ∧ ofLe (slice d 2 1) = walVersionV2 ∧ ofLe (slice d 4 4) ≠ 0) ∧
        (layoutAt d).totalLen ≤ d.length ∧ layoutAt d = l := by
  have htotal : (layoutAt d).totalLen =
      14 + ofLe (slice d 12 2) + 8 + ofLe (slice d (14 + ofLe (slice d 12 2) + 4) 4) + 20 := rfl
  constructor
  · intro h
    rw [parseRecord] at h
    split at h
    case isTrue => cases h
    split at h
    case isTrue => cases h
    case isFalse hhead =>
    dsimp only at h
    split at h
    case isTrue => cases h
    split at h
    case isTrue => cases h
    case isFalse hpayload => exact ⟨by tauto, by omega, Parsed.record.inj h⟩
  · rintro ⟨⟨hmagic, hversion, hlength⟩, htotal', rfl⟩
    rw [parseRecord, if_neg (by omega), if_neg (by tauto)]
    rw [if_neg (by omega), if_neg (by omega)]

/-! ## Reading back what was written -/

section
variable {r : WalRecord} (rest : List UInt8)

theorem WalRecord.length_take_fields :
    (r.fields.take 7).flatten.length = 14 + r.topic.utf8ByteSize ∧
    (r.fields.take 8).flatten.length = 14 + r.topic.utf8ByteSize + 4 ∧
    (r.fields.take 9).flatten.length = 14 + r.topic.utf8ByteSize + 8 ∧
    (r.fields.take 10).flatten.length =
      14 + r.topic.utf8ByteSize + 8 + r.canonicalData.length ∧
    (r.fields.take 11).flatten.length =
      14 + r.topic.utf8ByteSize + 8 + r.canonicalData.length + 8 ∧
    (r.fields.take 12).flatten.length =
      14 + r.topic.utf8ByteSize + 8 + r.canonicalData.length + 16 := by
  simp only [WalRecord.fields, take_succ_cons, take_zero, flatten_cons,
    flatten_nil, length_append, length_cons, length_nil, length_le,
    length_leInt, length_topicBytes]
  omega

theorem WalRecord.header_toBytes : ofLe (slice (r.toBytes ++ rest) 0 2) = walMagic ∧
    ofLe (slice (r.toBytes ++ rest) 2 1) = walVersionV2 := by
  have hmagic : slice (r.toBytes ++ rest) 0 2 = le 2 walMagic := slice_flatten 0 rfl rfl rfl
  have hversion : slice (r.toBytes ++ rest) 2 1 = le 1 walVersionV2 := slice_flatten 1 rfl rfl rfl
  rw [hmagic, hversion]
  decide

/-- The parts of a well-formed record are where its bytes have them. -/
theorem WalRecord.WellFormed.layoutAt_toBytes (h : r.WellFormed) :
    layoutAt (r.toBytes ++ rest) = r.layout := by
  have hflags : slice (r.toBytes ++ rest) 3 1 = [r.flags] := slice_flatten 2 rfl rfl rfl
  have hlength : slice (r.toBytes ++ rest) 4 4 = le 4 r.length := slice_flatten 3 rfl rfl rfl
  have hcrc : slice (r.toBytes ++ rest) 8 4 = le 4 r.crc32 := slice_flatten 4 rfl rfl rfl
  have htopic : slice (r.toBytes ++ rest) 12 2 = le 2 r.topic.utf8ByteSize :=
    slice_flatten 5 rfl rfl rfl
  obtain ⟨h7, h8, -, h10, h11, h12⟩ := WalRecord.length_take_fields (r := r)
  have hpartition : slice (r.toBytes ++ rest) _ 4 = leInt 4 r.partition :=
    slice_flatten 7 rfl h7.symm rfl
  have hsize : slice (r.toBytes ++ rest) _ 4 = le 4 r.canonicalData.length :=
    slice_flatten 8 rfl h8.symm rfl
  have hbase : slice (r.toBytes ++ rest) _ 8 = leInt 8 r.baseOffset :=
    slice_flatten 10 rfl h10.symm rfl
  have hlast : slice (r.toBytes ++ rest) _ 8 = leInt 8 r.lastOffset :=
    slice_flatten 11 rfl h11.symm rfl
  have hcount : slice (r.toBytes ++ rest) _ 4 = leInt 4 r.recordCount :=
    slice_flatten 12 rfl h12.symm rfl
  have hdata : r.canonicalData.length < 256 ^ 4 := by
    have := h.length_eq
    have := h.length_fits
    omega
  have hlengthFits : r.length < 256 ^ 4 := h.length_fits
  have hcrcFits : r.crc32 < 256 ^ 4 := h.crc_fits
  have htopicFits : r.topic.utf8ByteSize < 256 ^ 2 := h.topic_fits
  rw [layoutAt, htopic, ofLe_le_of_lt htopicFits, hsize,
    ofLe_le_of_lt hdata, hpartition, hbase, hlast, hcount, hflags, hlength, hcrc,
    ofLe_le_of_lt hlengthFits, ofLe_le_of_lt hcrcFits, ofLeInt_leInt h.partition_fits,
    ofLeInt_leInt h.base_fits, ofLeInt_leInt h.last_fits, ofLeInt_leInt h.count_fits]
  simp only [WalRecord.layout, headD_cons, RecordLayout.mk.injEq, Prod.mk.injEq, and_true, true_and]
  omega

/-- A well-formed record is located in any buffer that starts with its bytes. -/
theorem WalRecord.WellFormed.parseRecord_toBytes (h : r.WellFormed) :
    parseRecord (r.toBytes ++ rest) = .record r.layout := by
  obtain ⟨hmagic, hversion⟩ := r.header_toBytes rest
  have hlayout := h.layoutAt_toBytes rest
  have hlength : ofLe (slice (r.toBytes ++ rest) 4 4) = r.length := congrArg RecordLayout.length hlayout
  refine parseRecord_eq_record_iff.2 ⟨⟨hmagic, hversion, ?_⟩, ?_, hlayout⟩
  · rw [hlength, h.length_eq]
    omega
  · rw [hlayout, r.layout_totalLen, length_append]
    exact Nat.le_add_right _ _

theorem WalRecord.toRecord_layout : r.layout.toRecord (r.toBytes ++ rest) = some r := by
  obtain ⟨-, -, h9, -, -, -⟩ := WalRecord.length_take_fields (r := r)
  have htopic : slice (r.toBytes ++ rest) 14 r.topic.utf8ByteSize = r.topicBytes :=
    slice_flatten 6 rfl rfl rfl
  have hdata : slice (r.toBytes ++ rest) (22 + r.topic.utf8ByteSize) r.canonicalData.length =
      r.canonicalData := slice_flatten 9 rfl (by omega) rfl
  have hvalid : String.fromUTF8? ⟨r.topicBytes.toArray⟩ = some r.topic :=
    dif_pos r.topic.isValidUTF8
  rw [RecordLayout.toRecord]
  simp only [WalRecord.layout, Nat.add_sub_cancel_left, htopic, hdata, hvalid, Option.map_some]

theorem WalRecord.fromBytes_of_parseRecord
    (h : parseRecord d = .record l) : WalRecord.fromBytes d = l.toRecord d := by
  obtain ⟨⟨hmagic, hversion, -⟩, htotal, rfl⟩ := parseRecord_eq_record_iff.1 h
  have hlen : d.length ≥ 14 + ofLe (slice d 12 2) + 8 + ofLe (slice d (14 + ofLe (slice d 12 2) + 4) 4) + 20 :=
    htotal
  rw [WalRecord.fromBytes, if_neg (by omega)]
  rw [if_neg (by omega), if_neg (by omega), RecordLayout.toRecord, layoutAt]
  simp only [Nat.add_sub_cancel_left]

theorem WalRecord.WellFormed.fromBytes_toBytes (h : r.WellFormed) :
    WalRecord.fromBytes (r.toBytes ++ rest) = some r := by
  rw [WalRecord.fromBytes_of_parseRecord (h.parseRecord_toBytes rest)]
  exact r.toRecord_layout rest

end

/-! ## What a record depends on -/

section

theorem parseRecord_nil_ne (l : RecordLayout) : parseRecord [] ≠ .record l := by
  intro h
  cases h

variable (h : parseRecord d = .record l)
include h

theorem parseRecord_bounds :
    42 ≤ l.totalLen ∧ l.totalLen ≤ d.length ∧ l.topic.2 ≤ l.totalLen ∧
      l.payload.2 ≤ l.totalLen ∧ l.topic.1 ≤ l.topic.2 ∧ l.payload.1 ≤ l.payload.2 := by
  obtain ⟨-, htotal, rfl⟩ := parseRecord_eq_record_iff.1 h
  dsimp only [layoutAt] at htotal ⊢
  omega

/-- A buffer that agrees with another up to the end of a record has the same record at its start. -/
theorem parseRecord_eq_of_take_eq (hn : l.totalLen ≤ n)
    (hd : n ≤ d.length) (hde : d.take n = e.take n) : parseRecord e = .record l := by
  have he : n ≤ e.length := by
    have := congrArg List.length hde
    rw [length_take, length_take] at this
    omega
  have hslice : ∀ p m, p + m ≤ n → slice d p m = slice e p m :=
    fun p m hm => slice_eq_of_take_eq hde hm
  obtain ⟨hhead, htotal, rfl⟩ := parseRecord_eq_record_iff.1 h
  have hlen : 14 + ofLe (slice d 12 2) + 8 + ofLe (slice d (14 + ofLe (slice d 12 2) + 4) 4) + 20 ≤ n := hn
  have hlayout : layoutAt e = layoutAt d := by
    rw [layoutAt, ← hslice 12 2 (by omega), ← hslice 3 1 (by omega), ← hslice 4 4 (by omega),
      ← hslice 8 4 (by omega), ← hslice _ 4 (by omega), ← hslice _ 4 (by omega),
      ← hslice _ 8 (by omega), ← hslice _ 8 (by omega), ← hslice _ 4 (by omega)]
    rfl
  refine parseRecord_eq_record_iff.2 ⟨?_, ?_, hlayout⟩
  · rw [← hslice 0 2 (by omega), ← hslice 2 1 (by omega), ← hslice 4 4 (by omega)]
    exact hhead
  · rw [hlayout]
    exact hn.trans he

theorem parseRecord_append (rest : List UInt8) : parseRecord (d ++ rest) = .record l := by
  obtain ⟨-, hlen, -⟩ := parseRecord_bounds h
  exact parseRecord_eq_of_take_eq h (le_refl _) hlen (take_append_of_le_length hlen).symm

theorem parseRecord_take (hk : l.totalLen ≤ k) : parseRecord (d.take k) = .record l := by
  obtain ⟨-, hlen, -⟩ := parseRecord_bounds h
  refine parseRecord_eq_of_take_eq h (le_refl _) hlen ?_
  rw [take_take, min_eq_left hk]

end

end ChronikStream
