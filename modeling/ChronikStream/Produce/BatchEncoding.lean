import ChronikStream.Lib.Protobuf
import ChronikStream.Produce.WireRoundTrip

/-!
# Writing record batches

`KafkaRecordBatch::encode` and, for records without original bytes,
`CanonicalRecord::to_kafka_batch` write one format. What a writer writes is read back with any bytes
behind (`ByteReader.Reads`), up to the records section; that one has no end of its own when it is
read.
-/

namespace ChronikStream

open Bytes List Protobuf
open Option (map_eq_some_iff map_some bind_some)

/-! ## Writers of what the readers read -/

namespace ByteReader

variable {α β : Type}

/-- The zigzag encoding: 0, -1, 1, -2, … -/
def zigzag (i : Int) : Nat := (if 0 ≤ i then 2 * i else -2 * i - 1).toNat

/-- `encode_varint` at 4 bytes, `encode_varlong` at 8, of what a cast to the width leaves. -/
def writeVarint (w : Nat) (i : Int) : List UInt8 := encodeVarint (zigzag (wrap w i))

/-- The length of a string as it is written, -1 where there is none. -/
def nullableLength (x : Option (List UInt8)) : Int := (x.map fun bytes => (bytes.length : Int)).getD (-1)

def writeNullable (x : Option (List UInt8)) : List UInt8 :=
  writeVarint 4 (nullableLength x) ++ x.getD []

/-- The bytes are read as `a`, whatever follows them, and nothing else is consumed. -/
def Reads (read : ByteReader α) (bytes : List UInt8) (a : α) : Prop :=
  ∀ rest, read (bytes ++ rest) = some (a, rest)

theorem Reads.run {read : ByteReader α} {next : α → ByteReader β} (h : Reads read bytes a)
    (rest : List UInt8) : (read >>= next) (bytes ++ rest) = next a rest := by
  have hread : (read (bytes ++ rest)).bind (fun x => next x.1 x.2) = next a rest := by
    rw [h, bind_some]
  exact hread

theorem Reads.bind {read : ByteReader α} {next : α → ByteReader β} (h : Reads read bytes a)
    (hnext : Reads (next a) bytes' b) : Reads (read >>= next) (bytes ++ bytes') b := by
  intro rest
  rw [append_assoc, h.run]
  exact hnext rest

theorem guard_bind_eq_some {p : Prop} [Decidable p] {next : Unit → ByteReader β}
    (h : (guard p >>= next) bytes = some x) : p ∧ next () bytes = some x := by
  by_cases hp : p
  · rw [guard, if_pos hp] at h
    exact ⟨hp, h⟩
  · rw [guard, if_neg hp] at h
    cases h

theorem reads_pure (a : α) : Reads (pure a) [] a := fun _ => rfl

theorem reads_guard {p : Prop} [Decidable p] (hp : p) : Reads (guard p) [] () := by
  rw [guard, if_pos hp]
  exact reads_pure ()

theorem reads_lift {x : Option α} (h : x = some a) : Reads (liftM x) [] a := by
  subst h
  exact fun _ => rfl

theorem reads_exact (h : bytes.length = n) : Reads (exact n) bytes bytes := by
  intro rest
  rw [exact, if_neg (by rw [length_append]; omega), take_left' h, drop_left' h]

theorem varintFrom_encodeVarintFuel (hn : n * 2 ^ shift < 2 ^ bits) (hfuel : n < 128 ^ (fuel + 1)) :
    varintFrom bits shift (encodeVarintFuel (fuel + 1) n ++ rest) =
      some (n * 2 ^ shift, rest) := by
  have hlast : ∀ n shift, n < 128 → n * 2 ^ shift < 2 ^ bits →
      varintFrom bits shift ([UInt8.ofNat n] ++ rest) = some (n * 2 ^ shift, rest) := by
    intro n shift hlt hn
    rw [singleton_append, varintFrom, toNat_ofNat_of_lt (by omega), if_pos hlt,
      Nat.mod_eq_of_lt hlt, Nat.mod_eq_of_lt hn]
  induction fuel generalizing n shift with
  | zero =>
    rw [encodeVarintFuel, if_pos (by omega)]
    exact hlast n shift (by omega) hn
  | succ fuel ih =>
    rw [encodeVarintFuel]
    split
    case isTrue hlt => exact hlast n shift hlt hn
    case isFalse hge =>
    have hbyte : (UInt8.ofNat (n % 128 + 128)).toNat = n % 128 + 128 := toNat_ofNat_of_lt (by omega)
    have hpow : 2 ^ (shift + 7) = 128 * 2 ^ shift := by rw [Nat.pow_add, Nat.mul_comm]
    have hsplit : n % 128 * 2 ^ shift + n / 128 * 2 ^ (shift + 7) = n * 2 ^ shift := by
      rw [hpow, ← Nat.mul_assoc, ← Nat.add_mul, Nat.mul_comm (n / 128), Nat.mod_add_div]
    have hbits : ¬ bits ≤ shift + 7 := by
      intro hle
      have hfull : 2 ^ bits ≤ 128 * 2 ^ shift := hpow ▸ Nat.pow_le_pow_right (by decide) hle
      have hmore : 128 * 2 ^ shift ≤ n * 2 ^ shift := Nat.mul_le_mul_right _ (by omega)
      omega
    rw [cons_append, varintFrom, hbyte, if_neg (by omega), if_neg hbits, ih (by omega) (by omega),
      map_some, Nat.add_mod_right, Nat.mod_mod, Nat.mod_eq_of_lt (by omega), hsplit]

theorem unzigzag_zigzag (i : Int) : unzigzag (zigzag i) = i := by
  unfold unzigzag zigzag
  split <;> split <;> omega

theorem reads_varint (h : Fits w i) (hw : w ≤ 8) : Reads (varint (8 * w)) (writeVarint w i) i := by
  intro rest
  have hpow : 256 ^ w = 2 ^ (8 * w) := by rw [Nat.pow_mul]
  have hzigzag : zigzag i < 2 ^ (8 * w) := by
    have := h.1
    have := h.2
    unfold zigzag
    split <;> omega
  have hten : zigzag i < 128 ^ (9 + 1) :=
    lt_of_lt_of_le hzigzag (Nat.pow_le_pow_right (by decide) (by omega : 8 * w ≤ 64) |>.trans
      (by decide))
  rw [writeVarint, wrap_eq h, varint, encodeVarint,
    varintFrom_encodeVarintFuel (by omega) hten, map_some, Nat.pow_zero, mul_one,
    unzigzag_zigzag]

theorem reads_nullable (x : Option (List UInt8)) :
    Reads (nullable (nullableLength x)) (x.getD []) x := by
  cases x with
  | none => exact reads_pure none
  | some bytes =>
  have hread : Reads (exact bytes.length >>= fun b => pure (some b)) (bytes ++ []) (some bytes) :=
    (reads_exact rfl).bind (reads_pure _)
  rw [append_nil] at hread
  exact hread

theorem reads_times {read : ByteReader α} {write : α → List UInt8}
    (h : ∀ a ∈ as, Reads read (write a) a) : Reads (times read as.length) (as.flatMap write) as := by
  induction as with
  | nil => exact reads_pure []
  | cons a as ih =>
    obtain ⟨ha, has⟩ := forall_mem_cons.1 h
    have hall : Reads (times read (as.length + 1)) (write a ++ (as.flatMap write ++ [])) (a :: as) :=
      ha.bind (Reads.bind (ih has) (reads_pure (a :: as)))
    rwa [append_nil] at hall

/-- What is read many times over, where a read succeeds only on what can be written. -/
theorem forall_of_times {read : ByteReader α} {write : α → List UInt8} {p : α → Prop} {as : List α}
    (hreads : ∀ a, p a → Reads read (write a) a)
    (honly : ∀ a ∈ as, ∀ rest x, read (write a ++ rest) = some x → p a)
    (h : times read as.length (as.flatMap write ++ rest) = some x) : ∀ a ∈ as, p a := by
  induction as generalizing x with
  | nil => exact forall_mem_nil _
  | cons a as ih =>
    obtain ⟨ha, has⟩ := forall_mem_cons.1 honly
    rw [flatMap_cons, append_assoc] at h
    obtain ⟨a', middle, hread, hnext⟩ := bind_eq_some h
    have hp := ha _ _ hread
    cases (hreads a hp _).symm.trans hread
    obtain ⟨as', middle, htimes, -⟩ := bind_eq_some hnext
    exact forall_mem_cons.2 ⟨hp, ih has htimes⟩

end ByteReader

open ByteReader

/-! ## Records -/

def RecordHeader.keyBytes (h : RecordHeader) : List UInt8 := h.key.toUTF8.data.toList

def encodeRecordHeader (h : RecordHeader) : List UInt8 :=
  writeVarint 4 h.keyBytes.length ++ h.keyBytes ++ writeNullable h.value

namespace KafkaRecord

/-- A record without its length. -/
def body (r : KafkaRecord) : List UInt8 :=
  beInt 1 r.attributes ++ writeVarint 8 r.timestampDelta ++ writeVarint 4 r.offsetDelta ++
    writeNullable r.key ++ writeNullable r.value ++ writeVarint 4 r.headers.length ++
    r.headers.flatMap encodeRecordHeader

def encodeRecord (r : KafkaRecord) : List UInt8 := writeVarint 4 r.body.length ++ r.body

/-- The record with the length that encoding computes. -/
def measured (r : KafkaRecord) : KafkaRecord := { r with length := r.body.length }

/-- The limits of `decode_records`. -/
def HeadersFit (headers : List RecordHeader) : Prop :=
  headers.length ≤ 1000 ∧ ∀ h ∈ headers, h.keyBytes.length ≤ 10000 ∧ nullableLength h.value ≤ 1000000
deriving Decidable

/-- The fixed-width fields hold their values, and the headers are within the limits. -/
def Writable (r : KafkaRecord) : Prop :=
  Fits 1 r.attributes ∧ Fits 8 r.timestampDelta ∧ Fits 4 r.offsetDelta ∧ HeadersFit r.headers
deriving Decidable

end KafkaRecord

open KafkaRecord (measured HeadersFit body encodeRecord)

theorem length_writeVarint_pos (w : Nat) (i : Int) : 0 < (writeVarint w i).length :=
  length_pos_iff.2 encodeVarint_ne_nil

theorem length_encodeRecord_pos (r : KafkaRecord) : 0 < r.encodeRecord.length := by
  rw [encodeRecord, length_append]
  exact Nat.add_pos_left (length_writeVarint_pos 4 _) _

theorem length_encodeRecordHeader_pos (h : RecordHeader) : 0 < (encodeRecordHeader h).length := by
  rw [encodeRecordHeader, append_assoc, length_append]
  exact Nat.add_pos_left (length_writeVarint_pos 4 _) _

/-- What is written takes at least one byte each. -/
theorem length_le_flatMap {write : α → List UInt8} (h : ∀ a, 0 < (write a).length) (as : List α) :
    as.length ≤ (as.flatMap write).length := by
  induction as with
  | nil => exact Nat.zero_le _
  | cons a as ih =>
    have := h a
    rw [flatMap_cons, length_append, length_cons]
    omega

theorem fits_length {n : Nat} (h : n < 2 ^ 31) : Fits 4 n := by
  rw [Fits]
  omega

theorem fits_nullableLength (h : (x.getD []).length < 2 ^ 31) : Fits 4 (nullableLength x) := by
  cases x with
  | none => decide
  | some bytes => exact fits_length h

theorem reads_decodeRecordHeader
    (h : r.keyBytes.length ≤ 10000 ∧ nullableLength r.value ≤ 1000000) :
    Reads decodeRecordHeader (encodeRecordHeader r) r := by
  have hvalue : Fits 4 (nullableLength r.value) := by
    refine fits_nullableLength ?_
    obtain ⟨-, hvalue⟩ := h
    cases hv : r.value with
    | none => decide
    | some bytes =>
    rw [hv] at hvalue
    have : (bytes.length : Int) ≤ 1000000 := hvalue
    exact (by omega : bytes.length < 2 ^ 31)
  have hlength : Fits 4 r.keyBytes.length := fits_length (by omega)
  have hkey : String.fromUTF8? ⟨r.keyBytes.toArray⟩ = some r.key := dif_pos r.key.isValidUTF8
  have hall : Reads decodeRecordHeader (_ ++ ([] ++ (_ ++ ([] ++ (_ ++ ([] ++ (_ ++ []))))))) r :=
    (reads_varint hlength (by decide)).bind <| (reads_guard (by omega)).bind <|
      (reads_exact rfl).bind <| (reads_lift hkey).bind <|
        (reads_varint hvalue (by decide)).bind <| (reads_guard h.2).bind <|
          (reads_nullable r.value).bind (reads_pure _)
  simpa only [encodeRecordHeader, writeNullable, append_assoc, append_nil, nil_append] using hall

theorem reads_decodeRecord (r : KafkaRecord) (h : r.Writable) (hbody : r.body.length < 2 ^ 31) :
    Reads decodeRecord r.encodeRecord r.measured := by
  obtain ⟨hattributes, htimestamp, hoffset, hcount, hheaders⟩ := h
  have hkey : (r.key.getD []).length < 2 ^ 31 := by
    simp only [body, writeNullable, length_append] at hbody
    omega
  have hvalue : (r.value.getD []).length < 2 ^ 31 := by
    simp only [body, writeNullable, length_append] at hbody
    omega
  have hheadersLength : Fits 4 r.headers.length := fits_length (by omega)
  have hlast : Reads (pure { r.measured with attributes := ofBeInt (beInt 1 r.attributes) }) []
      r.measured := by
    rw [ofBeInt_beInt hattributes]
    exact reads_pure _
  have hall : Reads decodeRecord
      (_ ++ (_ ++ (_ ++ (_ ++ (_ ++ (_ ++ (_ ++ (_ ++ (_ ++ ([] ++ (_ ++ []))))))))))) r.measured :=
    (reads_varint (fits_length hbody) (by decide)).bind <|
      (reads_exact (length_beInt 1 r.attributes)).bind <|
        (reads_varint htimestamp (by decide)).bind <| (reads_varint hoffset (by decide)).bind <|
          (reads_varint (fits_nullableLength hkey) (by decide)).bind <|
            (reads_nullable r.key).bind <|
              (reads_varint (fits_nullableLength hvalue) (by decide)).bind <|
                (reads_nullable r.value).bind <|
                  (reads_varint hheadersLength (by decide)).bind <|
                    (reads_guard (by omega)).bind <|
                      (reads_times fun a ha => reads_decodeRecordHeader (hheaders a ha)).bind hlast
  simpa only [encodeRecord, body, writeNullable, append_assoc, append_nil,
    nil_append] using hall

theorem limits_of_decodeRecordHeader (hsize : (encodeRecordHeader r).length < 2 ^ 31)
    (h : decodeRecordHeader (encodeRecordHeader r ++ rest) = some x) :
    r.keyBytes.length ≤ 10000 ∧ nullableLength r.value ≤ 1000000 := by
  rw [encodeRecordHeader, writeNullable] at h hsize
  simp only [length_append] at hsize
  have hkey : String.fromUTF8? ⟨r.keyBytes.toArray⟩ = some r.key := dif_pos r.key.isValidUTF8
  rw [append_assoc, append_assoc, decodeRecordHeader,
    (reads_varint (fits_length (by omega)) (by decide)).run] at h
  obtain ⟨⟨-, hlength⟩, h⟩ := guard_bind_eq_some h
  rw [Int.toNat_natCast, (reads_exact rfl).run] at h
  replace h := ((reads_lift hkey).run (writeVarint 4 (nullableLength r.value) ++
    (r.value.getD [] ++ rest))).symm.trans (append_assoc .. ▸ h)
  rw [(reads_varint (fits_nullableLength (by omega)) (by decide)).run] at h
  exact ⟨by omega, (guard_bind_eq_some h).1⟩

theorem headersFit_of_decodeRecord {r : KafkaRecord} (htimestamp : Fits 8 r.timestampDelta)
    (hoffset : Fits 4 r.offsetDelta) (hbody : r.body.length < 2 ^ 31)
    (h : decodeRecord (r.encodeRecord ++ rest) = some x) :
    HeadersFit r.headers := by
  have hparts := hbody
  simp only [body, writeNullable, length_append] at hparts
  have hheader : ∀ a ∈ r.headers, (encodeRecordHeader a).length < 2 ^ 31 := by
    intro a ha
    have : (encodeRecordHeader a).length ≤ (r.headers.flatMap encodeRecordHeader).length :=
      (sublist_flatten_of_mem (mem_map_of_mem ha)).length_le
    omega
  have hcount : Fits 4 r.headers.length := by
    have := length_le_flatMap length_encodeRecordHeader_pos r.headers
    exact fits_length (by omega)
  rw [decodeRecord, encodeRecord, append_assoc,
    (reads_varint (fits_length hbody) (by decide)).run, body] at h
  simp only [writeNullable, append_assoc] at h
  rw [(reads_exact (length_beInt 1 r.attributes)).run, (reads_varint htimestamp (by decide)).run,
    (reads_varint hoffset (by decide)).run,
    (reads_varint (fits_nullableLength (by omega)) (by decide)).run, (reads_nullable r.key).run,
    (reads_varint (fits_nullableLength (by omega)) (by decide)).run, (reads_nullable r.value).run,
    (reads_varint hcount (by decide)).run] at h
  obtain ⟨⟨-, hle⟩, h⟩ := guard_bind_eq_some h
  obtain ⟨headers, middle, htimes, -⟩ := bind_eq_some h
  exact ⟨by omega, forall_of_times (fun a => reads_decodeRecordHeader)
    (fun a ha _ _ => limits_of_decodeRecordHeader (hheader a ha)) htimes⟩

/-- `encode_records`, without the compression. -/
def encodeRecords (rs : List KafkaRecord) : List UInt8 := rs.flatMap encodeRecord

theorem decodeRecordsFrom_encodeRecords {rs : List KafkaRecord}
    (h : ∀ r ∈ rs, r.Writable ∧ r.body.length < 2 ^ 31) (hfuel : (encodeRecords rs).length ≤ fuel) :
    decodeRecordsFrom (k + rs.length : Nat) fuel k (encodeRecords rs) =
      some (rs.map measured) := by
  induction rs generalizing fuel k with
  | nil => cases fuel <;> simp [decodeRecordsFrom, encodeRecords]
  | cons r rs ih =>
    obtain ⟨⟨hr, hbody⟩, hrs⟩ := forall_mem_cons.1 h
    have hpos := length_encodeRecord_pos r
    rw [encodeRecords, flatMap_cons, length_append, ← encodeRecords] at hfuel
    obtain ⟨fuel, rfl⟩ := Nat.exists_eq_add_one.2 (by omega : 0 < fuel)
    have hmore : ¬ (r.encodeRecord ++ encodeRecords rs = [] ∨
        0 ≤ ((k + (rs.length + 1) : Nat) : Int) ∧ ((k + (rs.length + 1) : Nat) : Int) ≤ k) := by
      rintro (hnil | hle)
      · rw [(append_eq_nil_iff.1 hnil).1] at hpos
        exact absurd hpos (by decide)
      · omega
    have hcount : k + (rs.length + 1) = k + 1 + rs.length := by omega
    rw [encodeRecords, flatMap_cons, ← encodeRecords, length_cons, decodeRecordsFrom, if_neg hmore,
      reads_decodeRecord r hr hbody, bind_some, hcount, ih hrs (by omega), map_some,
      map_cons]

theorem headersFit_of_decodeRecordsFrom {rs : List KafkaRecord}
    (hrs : ∀ r ∈ rs, (Fits 1 r.attributes ∧ Fits 8 r.timestampDelta ∧ Fits 4 r.offsetDelta) ∧
      r.body.length < 2 ^ 31) (hfuel : (encodeRecords rs).length ≤ fuel)
    (h : decodeRecordsFrom (k + rs.length : Nat) fuel k (encodeRecords rs) = some records) :
    ∀ r ∈ rs, HeadersFit r.headers := by
  induction rs generalizing fuel k records with
  | nil => exact forall_mem_nil _
  | cons r rs ih =>
    obtain ⟨⟨⟨hattributes, htimestamp, hoffset⟩, hbody⟩, hrs⟩ := forall_mem_cons.1 hrs
    have hpos := length_encodeRecord_pos r
    have hsplit : encodeRecords (r :: rs) = r.encodeRecord ++ encodeRecords rs := flatMap_cons ..
    rw [hsplit] at h hfuel
    have hne : r.encodeRecord ++ encodeRecords rs ≠ [] := by
      intro hnil
      rw [(append_eq_nil_iff.1 hnil).1] at hpos
      exact absurd hpos (by decide)
    obtain ⟨fuel, r', rest, tail, hr, htail, -, hrest, -⟩ :=
      decodeRecordsFrom_cons h hne hfuel (.inr (by rw [length_cons]; omega))
    have hheaders := headersFit_of_decodeRecord htimestamp hoffset hbody hr
    cases (reads_decodeRecord r ⟨hattributes, htimestamp, hoffset, hheaders⟩ hbody _).symm.trans hr
    rw [length_cons, ← add_assoc, add_right_comm] at htail
    exact forall_mem_cons.2 ⟨hheaders, ih hrs hrest htail⟩

/-! ## Batches -/

namespace RecordBatchHeader

/-- The fields of a v2 header as they are laid out. -/
def layout (h : RecordBatchHeader) : List (List UInt8) :=
  [beInt 8 h.baseOffset, beInt 4 h.batchLength, beInt 4 h.partitionLeaderEpoch, beInt 1 h.magic,
    (le 4 h.crc).reverse, (le 2 h.attributes).reverse, beInt 4 h.lastOffsetDelta,
    beInt 8 h.baseTimestamp, beInt 8 h.maxTimestamp, beInt 8 h.producerId, beInt 2 h.producerEpoch,
    beInt 4 h.baseSequence, beInt 4 h.recordsCount]

/-- The header that stands in front of a records section: the length and the checksum, which covers
everything from the attributes on, are those of the section. -/
def filled (crc : List UInt8 → Nat) (h : RecordBatchHeader) (recordsData : List UInt8) :
    RecordBatchHeader :=
  { h with
    batchLength := wrap 4 (49 + recordsData.length)
    crc := crc ((h.layout.drop 5).flatten ++ recordsData) }

/-- Every field but the length and the checksum holds a value of its type. -/
def Typed (h : RecordBatchHeader) : Prop :=
  Fits 8 h.baseOffset ∧ Fits 4 h.partitionLeaderEpoch ∧ Fits 1 h.magic ∧ h.attributes < 2 ^ 16 ∧
    Fits 4 h.lastOffsetDelta ∧ Fits 8 h.baseTimestamp ∧ Fits 8 h.maxTimestamp ∧
    Fits 8 h.producerId ∧ Fits 2 h.producerEpoch ∧ Fits 4 h.baseSequence ∧ Fits 4 h.recordsCount

@[simp] theorem length_layout (h : RecordBatchHeader) : h.layout.flatten.length = 61 := by
  simp [layout]

theorem read_layout {h : RecordBatchHeader} (ht : h.Typed) (hlength : Fits 4 h.batchLength)
    (hcrc : h.crc < 2 ^ 32) : read (h.layout.flatten ++ rest) = h := by
  obtain ⟨hbase, hepoch, hmagic, hattributes, hlast, htimestamp, hmax, hproducer, hproducerEpoch,
    hsequence, hcount⟩ := ht
  have hint : ∀ {w i} j p, h.layout[j]? = some (beInt w i) → p = (h.layout.take j).flatten.length →
      Fits w i → ofBeInt (slice (h.layout.flatten ++ rest) p w) = i := by
    intro w i j p hj hp hi
    rw [slice_flatten j hj hp (length_beInt w i).symm, ofBeInt_beInt hi]
  have hnat : ∀ {w n} j p, h.layout[j]? = some (le w n).reverse →
      p = (h.layout.take j).flatten.length → n < 256 ^ w →
      ofLe (slice (h.layout.flatten ++ rest) p w).reverse = n := by
    intro w n j p hj hp hn
    rw [slice_flatten j hj hp (by rw [length_reverse, length_le]), reverse_reverse, ofLe_le_of_lt hn]
  rw [read, hint 0 0 rfl rfl hbase, hint 1 8 rfl rfl hlength, hint 2 12 rfl rfl hepoch,
    hint 3 16 rfl rfl hmagic, hnat 4 17 rfl rfl hcrc, hnat 5 21 rfl rfl hattributes,
    hint 6 23 rfl rfl hlast, hint 7 27 rfl rfl htimestamp, hint 8 35 rfl rfl hmax,
    hint 9 43 rfl rfl hproducer, hint 10 51 rfl rfl hproducerEpoch, hint 11 53 rfl rfl hsequence,
    hint 12 57 rfl rfl hcount]

end RecordBatchHeader

/-- The compression libraries both ways, and the checksum. -/
structure BatchCodec extends Codecs where
  compress : CompressionType → List UInt8 → List UInt8
  crc : List UInt8 → Nat
  decompress_compress : ∀ c x, toCodecs.decompress c (compress c x) = some x
  crc_lt : ∀ x, crc x < 2 ^ 32

/-- A batch: the header with its length and checksum filled in, and the records section. -/
def RecordBatchHeader.encodeOver (crc : List UInt8 → Nat) (h : RecordBatchHeader)
    (recordsData : List UInt8) : List UInt8 :=
  (h.filled crc recordsData).layout.flatten ++ recordsData

@[simp] theorem length_encodeOver :
    (RecordBatchHeader.encodeOver crc h data).length = 61 + data.length := by
  rw [RecordBatchHeader.encodeOver, length_append, RecordBatchHeader.length_layout]

namespace KafkaRecordBatch

/-- Header and records agree, and every field holds a value of its type. -/
structure Sound (b : KafkaRecordBatch) : Prop where
  typed : b.header.Typed
  magic : b.header.magic = 2
  count : b.header.recordsCount = wrap 4 b.records.length
  writable : ∀ r ∈ b.records, r.Writable

/-- The records, each and their number, are below the limit of a 32-bit length. -/
def RecordsFit (b : KafkaRecordBatch) : Prop :=
  (∀ r ∈ b.records, r.body.length < 2 ^ 31) ∧ b.records.length < 2 ^ 31
deriving Decidable

theorem decodeRecords_encodeRecords (hb : Sound b) (hfit : b.RecordsFit) :
    decodeRecords (encodeRecords b.records) b.header.recordsCount =
        some (b.records.map measured) ∧
      ((b.records.map measured).length : Int) = b.header.recordsCount := by
  have hcount : b.header.recordsCount = (0 + b.records.length : Nat) := by
    rw [hb.count, wrap_eq (fits_length hfit.2), zero_add]
  rw [hcount, length_map, zero_add]
  refine ⟨?_, rfl⟩
  rw [← zero_add b.records.length]
  exact decodeRecordsFrom_encodeRecords (fun r hr => ⟨hb.writable r hr, hfit.1 r hr⟩) le_rfl

/-- The header that is read back. Its length and checksum are variables here: no projection of the
header meets the arithmetic of `wrap`. -/
theorem exists_read_encodeOver (k : BatchCodec) {h : RecordBatchHeader} (ht : h.Typed)
    (data t : List UInt8) : ∃ length checksum,
      h.filled k.crc data = { h with batchLength := length, crc := checksum } ∧
      length = wrap 4 (49 + data.length) ∧
      RecordBatchHeader.read (h.encodeOver k.crc data ++ t) =
        { h with batchLength := length, crc := checksum } := by
  obtain ⟨length, checksum, hover, hlength, hchecksum⟩ : ∃ length checksum,
      h.filled k.crc data = { h with batchLength := length, crc := checksum } ∧
        length = wrap 4 (49 + data.length) ∧ checksum < 2 ^ 32 := ⟨_, _, rfl, rfl, k.crc_lt _⟩
  have hfits : Fits 4 length := by
    rw [hlength]
    exact fits_wrap 4 (49 + data.length)
  refine ⟨length, checksum, hover, hlength, ?_⟩
  rw [RecordBatchHeader.encodeOver, hover]
  exact RecordBatchHeader.read_layout ht hfits hchecksum

/-- What is decoded of an encoded batch are the records that its section decompresses to. -/
theorem decode_encodeOver_eq (k : BatchCodec) {h : RecordBatchHeader} (ht : h.Typed)
    (hmagic : h.magic = 2) (hsize : 61 + data.length < 2 ^ 31) :
    decode k.toCodecs (h.encodeOver k.crc data ++ t) = (k.recordsOf h (data ++ t)).map
      fun records => (⟨h.filled k.crc data, records⟩, 61 + data.length) := by
  obtain ⟨length, checksum, hover, hlength, hread⟩ := exists_read_encodeOver k ht data t
  rw [wrap_eq (by rw [Fits]; omega)] at hlength
  have hbatch : (RecordBatchHeader.read (h.encodeOver k.crc data ++ t)).batchLength = length := by
    rw [hread]
  have hmagic : (RecordBatchHeader.read (h.encodeOver k.crc data ++ t)).magic = 2 := by
    rw [hread]
    exact hmagic
  have hfirst : firstBatchSize (h.encodeOver k.crc data ++ t) = 61 + data.length := by
    rw [firstBatchSize, hbatch]
    omega
  have hdrop : (h.encodeOver k.crc data ++ t).drop 61 = data ++ t := by
    rw [RecordBatchHeader.encodeOver, append_assoc, drop_left' (RecordBatchHeader.length_layout _)]
  rw [decode_eq_map hmagic (by omega) (by rw [hfirst, length_append, length_encodeOver]; omega),
    hdrop, hfirst, hread, hover]
  rfl

/-- What is encoded is decoded, with a section that decompresses to the records and anything behind
them. -/
theorem decode_encodeOver (k : BatchCodec) (hb : Sound b) (hfit : b.RecordsFit)
    (hsize : 61 + data.length < 2 ^ 31)
    (hdata : k.decompress (.fromAttributes b.header.attributes) (data ++ t) =
      some (encodeRecords b.records ++ more)) :
    decode k.toCodecs (b.header.encodeOver k.crc data ++ t) =
      some (⟨b.header.filled k.crc data, b.records.map measured⟩, 61 + data.length) := by
  obtain ⟨hrecords, hcount⟩ := decodeRecords_encodeRecords hb hfit
  rw [decode_encodeOver_eq k hb.typed hb.magic hsize, Codecs.recordsOf, hdata, bind_some,
    decodeRecords_append hrecords hcount more, map_some]

/-! ## Batches that are built and encoded -/

/-- The number of a codec in the attributes. -/
def toAttributes : CompressionType → Nat
  | .none => 0
  | .gzip => 1
  | .snappy => 2
  | .lz4 => 3
  | .zstd => 4

/-- The arguments of `new`. -/
structure NewBatch where
  baseOffset : Int
  baseTimestamp : Int
  producerId : Int
  producerEpoch : Int
  baseSequence : Int
  compression : CompressionType
  isTransactional : Bool

def NewBatch.Typed (a : NewBatch) : Prop :=
  Fits 8 a.baseOffset ∧ Fits 8 a.baseTimestamp ∧ Fits 8 a.producerId ∧ Fits 2 a.producerEpoch ∧
    Fits 4 a.baseSequence
deriving Decidable

/-- The arguments of `add_record`. -/
structure NewRecord where
  key : Option (List UInt8)
  value : Option (List UInt8)
  headers : List RecordHeader
  timestamp : Int

def NewRecord.Typed (a : NewRecord) : Prop := Fits 8 a.timestamp ∧ HeadersFit a.headers
deriving Decidable

def new (a : NewBatch) : KafkaRecordBatch where
  header :=
    { baseOffset := a.baseOffset, batchLength := 0, partitionLeaderEpoch := -1, magic := 2, crc := 0
      attributes := toAttributes a.compression ||| if a.isTransactional then 0x10 else 0
      lastOffsetDelta := 0, baseTimestamp := a.baseTimestamp, maxTimestamp := a.baseTimestamp
      producerId := a.producerId, producerEpoch := a.producerEpoch, baseSequence := a.baseSequence
      recordsCount := 0 }
  records := []

section
variable (k : BatchCodec) (b : KafkaRecordBatch)

def addRecord (a : NewRecord) : KafkaRecordBatch where
  header :=
    { b.header with
      maxTimestamp := if b.header.maxTimestamp < a.timestamp then a.timestamp else b.header.maxTimestamp
      lastOffsetDelta := wrap 4 b.records.length
      recordsCount := wrap 4 (b.records.length + 1) }
  records := b.records ++ [{
    length := 0, attributes := 0, timestampDelta := wrap 8 (a.timestamp - b.header.baseTimestamp)
    offsetDelta := wrap 4 b.records.length, key := a.key, value := a.value, headers := a.headers }]

def recordsData : List UInt8 :=
  k.compress (.fromAttributes b.header.attributes) (encodeRecords b.records)

def encode : List UInt8 :=
  b.header.encodeOver k.crc (b.recordsData k)

/-- The batch with the fields that encoding computes: its length, its checksum and the lengths of
its records. -/
def filledIn : KafkaRecordBatch :=
  ⟨b.header.filled k.crc (b.recordsData k), b.records.map measured⟩

/-- The records and the whole batch are below the limit of a 32-bit length. -/
def SizeFits : Prop := b.RecordsFit ∧ (b.encode k).length < 2 ^ 31
deriving Decidable

end

theorem decode_encode_append (k : BatchCodec) (hb : Sound b) (hsize : SizeFits k b)
    (hdata : k.decompress (.fromAttributes b.header.attributes) (b.recordsData k ++ t) =
      some (encodeRecords b.records ++ more)) :
    decode k.toCodecs (b.encode k ++ t) = some (b.filledIn k, (b.encode k).length) := by
  have hlength : (b.encode k).length = 61 + (b.recordsData k).length := length_encodeOver
  rw [hlength]
  exact decode_encodeOver k hb hsize.1 (hlength ▸ hsize.2) hdata

theorem decode_encode (k : BatchCodec) (hb : Sound b) (hsize : SizeFits k b) :
    decode k.toCodecs (b.encode k) = some (b.filledIn k, (b.encode k).length) := by
  have hdata : k.decompress (.fromAttributes b.header.attributes) (b.recordsData k ++ []) =
      some (encodeRecords b.records ++ []) := by
    rw [append_nil, append_nil]
    exact k.decompress_compress _ _
  have hdecode := decode_encode_append k hb hsize hdata
  rwa [append_nil] at hdecode

/-- The new values are variables here: a projection of the new header never meets their arithmetic.
-/
theorem Sound.append {max last count : Int} (h : Sound b) (hr : r.Writable) (hmax : Fits 8 max)
    (hlast : Fits 4 last) (hfits : Fits 4 count)
    (hcount : count = wrap 4 (b.records ++ [r]).length) :
    Sound ⟨{ b.header with maxTimestamp := max, lastOffsetDelta := last, recordsCount := count },
      b.records ++ [r]⟩ := by
  obtain ⟨hbase, hepoch, hmagic, hattributes, -, htimestamp, -, hid, hproducer, hsequence, -⟩ := h.typed
  refine ⟨⟨hbase, hepoch, hmagic, hattributes, hlast, htimestamp, hmax, hid, hproducer, hsequence,
    hfits⟩, h.magic, hcount, ?_⟩
  exact forall_mem_concat.2 ⟨h.writable, ‹_›⟩

theorem Sound.addRecord (h : Sound b) (ha : a.Typed) : Sound (b.addRecord a) := by
  obtain ⟨-, -, -, -, -, -, hmax, -⟩ := h.typed
  have hmax' : Fits 8 (if b.header.maxTimestamp < a.timestamp then a.timestamp else
      b.header.maxTimestamp) := by
    split
    · exact ha.1
    · exact hmax
  have hdelta : Fits 8 (wrap 8 (a.timestamp - b.header.baseTimestamp)) := fits_wrap 8 _
  have hlast : Fits 4 (wrap 4 b.records.length) := fits_wrap 4 _
  have hcount : Fits 4 (wrap 4 (b.records.length + 1)) := fits_wrap 4 _
  have hr : KafkaRecord.Writable ⟨0, 0, wrap 8 (a.timestamp - b.header.baseTimestamp),
      wrap 4 b.records.length, a.key, a.value, a.headers⟩ := by
    dsimp only [KafkaRecord.Writable]
    exact ⟨by decide, hdelta, hlast, ha.2⟩
  refine h.append hr hmax' hlast hcount ?_
  rw [length_append, length_singleton, Int.natCast_add, Int.cast_ofNat_Int]

theorem sound_new (h : a.Typed) : Sound (new a) := by
  obtain ⟨hbase, htimestamp, hproducer, hepoch, hsequence⟩ := h
  have hattributes :
      (toAttributes a.compression ||| if a.isTransactional then 0x10 else 0) < 2 ^ 16 := by
    cases a.compression <;> cases a.isTransactional <;> decide
  have hminus : Fits 4 (-1) := by decide
  have htwo : Fits 1 2 := by decide
  have hzero : Fits 4 0 := by decide
  constructor
  · simp only [RecordBatchHeader.Typed, new, hbase, htimestamp, hproducer, hepoch, hsequence,
      hattributes, hminus, htwo, hzero, and_self]
  · rfl
  · exact (wrap_eq hzero).symm
  · simp [new]

theorem sound_built {adds : List NewRecord} (h : Sound b) (hadds : ∀ a ∈ adds, a.Typed) :
    Sound (adds.foldl addRecord b) := by
  induction adds generalizing b with
  | nil => exact h
  | cons a adds ih =>
    obtain ⟨ha, hadds⟩ := forall_mem_cons.1 hadds
    rw [foldl_cons]
    exact ih (h.addRecord ha) hadds

/-- A built batch comes back with its length, its checksum and the lengths of its records filled in,
and nothing else changed. -/
theorem decode_encode_built (k : BatchCodec) (a : NewBatch) (adds : List NewRecord) (ha : a.Typed)
    (hadds : ∀ r ∈ adds, r.Typed) (hsize : SizeFits k (adds.foldl addRecord (new a))) :
    decode k.toCodecs ((adds.foldl addRecord (new a)).encode k) =
      some ((adds.foldl addRecord (new a)).filledIn k,
        ((adds.foldl addRecord (new a)).encode k).length) :=
  decode_encode k (sound_built (sound_new ha) hadds) hsize

/-- A codec that marks what it compresses. -/
def marking : BatchCodec where
  toCodecs := WireRoundTrip.marked
  compress := WireRoundTrip.mark
  crc _ := 7
  decompress_compress := WireRoundTrip.decompress_mark
  crc_lt _ := by decide

theorem decode_encode_built_gzip :
    (decode marking.toCodecs (([⟨none, some [1], [⟨"k", none⟩], -3⟩].foldl addRecord
      (new ⟨5, 0, -1, -1, -1, .gzip, true⟩)).encode marking)).map (·.2) = some 73 :=
  (congrArg (Option.map (·.2)) (decode_encode_built marking ⟨5, 0, -1, -1, -1, .gzip, true⟩
    [⟨none, some [1], [⟨"k", none⟩], -3⟩] (by decide) (by decide) (by decide +kernel))).trans
    (by decide +kernel)

/-- The length of a built batch is 0 until it is encoded. -/
theorem length_filled_in : ¬ ∀ (k : BatchCodec) (a : NewBatch), a.Typed → SizeFits k (new a) →
    decode k.toCodecs ((new a).encode k) = some (new a, ((new a).encode k).length) := by
  intro h
  exact absurd (h marking ⟨0, 0, 0, 0, 0, .none, false⟩ (by decide) (by decide +kernel))
    (by decide +kernel)

/-! ## Batches in front of other bytes -/

/-- `compressed_records_data`: what decoding keeps of the records section. -/
def preservedRecords (data : List UInt8) : List UInt8 := data.drop 61

/-- A batch is decoded and kept as if nothing followed it. -/
def SelfDelimiting (k : BatchCodec) (b : KafkaRecordBatch) (t : List UInt8) : Prop :=
  decode k.toCodecs (b.encode k ++ t) = some (b.filledIn k, (b.encode k).length) ∧
    preservedRecords (b.encode k ++ t) = b.recordsData k
deriving Decidable

/-- A batch is kept without what follows only where nothing does. Its records are still decoded
right where they are not compressed, or the codec looks no further than the compressed data. -/
theorem selfDelimiting_iff (k : BatchCodec) (b : KafkaRecordBatch) (hb : Sound b)
    (hsize : SizeFits k b) (t : List UInt8) :
    (SelfDelimiting k b t ↔ t = []) ∧
      (CompressionType.fromAttributes b.header.attributes = .none ∨
        k.decompress (.fromAttributes b.header.attributes) (b.recordsData k ++ t) =
          k.decompress (.fromAttributes b.header.attributes) (b.recordsData k) →
        decode k.toCodecs (b.encode k ++ t) = some (b.filledIn k, (b.encode k).length)) := by
  have hdata : k.decompress (.fromAttributes b.header.attributes) (b.recordsData k) =
      some (encodeRecords b.records) := k.decompress_compress _ _
  have hkept : preservedRecords (b.encode k ++ t) = b.recordsData k ++ t := by
    rw [preservedRecords, encode, drop_append_of_le_length (by simp)]
    exact congrArg (· ++ t) (drop_left' (RecordBatchHeader.length_layout _))
  refine ⟨⟨fun h => append_right_eq_self.1 (hkept.symm.trans h.2), ?_⟩, ?_⟩
  · rintro rfl
    refine ⟨?_, by rw [hkept, append_nil]⟩
    rw [append_nil]
    exact decode_encode k hb hsize
  · rintro (hnone | hsame)
    · refine decode_encode_append k hb hsize (?_ : _ = some (encodeRecords b.records ++ t))
      rw [hnone] at hdata ⊢
      rw [Codecs.decompress, Option.some.inj hdata]
    · refine decode_encode_append k hb hsize (?_ : _ = some (encodeRecords b.records ++ []))
      rw [hsame, hdata, append_nil]

theorem selfDelimiting_two_records : SelfDelimiting marking
    ([⟨none, some [1], [⟨"k", none⟩], -3⟩, ⟨some [2], none, [], 7⟩].foldl addRecord
      (new ⟨5, 0, -1, -1, -1, .gzip, true⟩)) [] :=
  (selfDelimiting_iff marking _ (sound_built (sound_new (by decide)) (by decide))
    (by decide +kernel) []).1.2 rfl

/-- The bytes behind a batch are kept as bytes of its records. -/
theorem following_bytes_preserved : ¬ ∀ (k : BatchCodec) (b : KafkaRecordBatch), Sound b →
    SizeFits k b → ∀ t, SelfDelimiting k b t := by
  intro h
  exact absurd (h marking (new ⟨0, 0, 0, 0, 0, .gzip, false⟩) (sound_new (by decide))
    (by decide +kernel) [0]) (by decide +kernel)

end KafkaRecordBatch

/-! ## Entries without original bytes -/

/-- What `from_entries` makes of entries. -/
structure EntryBatch where
  baseOffset : Int
  baseTimestamp : Int
  maxTimestamp : Int
  compression : CompressionType
  timestampType : TimestampType
  records : List CanonicalRecordEntry

namespace EntryBatch

open KafkaRecordBatch

def fromEntries (entries : List CanonicalRecordEntry) (compression : CompressionType)
    (timestampType : TimestampType) : Option EntryBatch :=
  entries.head?.map fun first =>
    { baseOffset := first.offset
      baseTimestamp := (entries.map (·.timestamp)).foldl min (2 ^ 63 - 1)
      maxTimestamp := (entries.map (·.timestamp)).foldl max i64Min
      compression, timestampType, records := entries }

/-- An entry with the deltas of `encode_records`. -/
def record (c : EntryBatch) (e : CanonicalRecordEntry) : KafkaRecord where
  length := 0
  attributes := e.attributes
  timestampDelta := wrap 8 (e.timestamp - c.baseTimestamp)
  offsetDelta := wrap 4 (e.offset - c.baseOffset)
  key := e.key
  value := e.value
  headers := e.headers

/-- The header `to_kafka_batch` writes, and the records behind it. -/
def batch (c : EntryBatch) : KafkaRecordBatch where
  header :=
    { baseOffset := c.baseOffset, batchLength := 0, partitionLeaderEpoch := -1, magic := 2, crc := 0
      attributes := toAttributes c.compression ||| if c.timestampType = .logAppendTime then 8 else 0
      lastOffsetDelta := wrap 4 (c.records.length - 1 : Nat), baseTimestamp := c.baseTimestamp
      maxTimestamp := c.maxTimestamp, producerId := -1, producerEpoch := -1, baseSequence := -1
      recordsCount := wrap 4 c.records.length }
  records := c.records.map c.record

section
variable (k : BatchCodec) (zlib : List UInt8 → List UInt8)

/-- `compress_records` writes zlib where the attributes say zstd, and has no other codecs. -/
def compressRecords : CompressionType → List UInt8 → Option (List UInt8)
  | .none, x => some x
  | .gzip, x => some (k.compress .gzip x)
  | .zstd, x => some (zlib x)
  | .snappy, _ | .lz4, _ => none

def toKafkaBatch (c : EntryBatch) : Option (List UInt8) :=
  (compressRecords k zlib c.compression (encodeRecords c.batch.records)).map
    (c.batch.header.encodeOver k.crc)

/-- The fixed-width fields hold values of their types. -/
def EntryTyped (e : CanonicalRecordEntry) : Prop :=
  Fits 8 e.offset ∧ Fits 8 e.timestamp ∧ Fits 1 e.attributes
deriving Decidable

/-- The entries come back when they are written and read. -/
def Survives (compression : CompressionType)
    (timestampType : TimestampType) (entries : List CanonicalRecordEntry) : Prop :=
  (((fromEntries entries compression timestampType).bind (toKafkaBatch k zlib)).bind
    (CanonicalRecord.fromKafkaBatch k.toCodecs)).map (·.records) = some entries

end

theorem fits_foldl {op : Int → Int → Int} (hop : ∀ a b, op a b = a ∨ op a b = b) (ha : Fits w a)
    (hxs : ∀ x ∈ xs, Fits w x) : Fits w (foldl op a xs) := by
  induction xs generalizing a with
  | nil => exact ha
  | cons x xs ih =>
    obtain ⟨hx, hxs⟩ := forall_mem_cons.1 hxs
    refine ih ?_ hxs
    rcases hop a x with h | h <;> rwa [h]

theorem count_batch (c : EntryBatch) :
    c.batch.header.recordsCount = wrap 4 c.batch.records.length := by
  simp only [batch, length_map]

section
variable (hc : fromEntries entries codec kind = some c) (he : ∀ e ∈ entries, EntryTyped e)
include hc

theorem records_eq : c.records = entries := by
  obtain ⟨first, -, rfl⟩ := map_eq_some_iff.1 hc
  rfl

theorem compression_eq : c.compression = codec := by
  obtain ⟨first, -, rfl⟩ := map_eq_some_iff.1 hc
  rfl

include he

theorem typed_batch : c.batch.header.Typed := by
  obtain ⟨first, hfirst, rfl⟩ := map_eq_some_iff.1 hc
  have hbase : Fits 8 first.offset := (he first (mem_of_mem_head? hfirst)).1
  have hall : ∀ x ∈ entries.map (·.timestamp), Fits 8 x := forall_mem_map.2 fun e h => (he e h).2.1
  have hmin := fits_foldl min_choice (by decide : Fits 8 (2 ^ 63 - 1)) hall
  have hmax := fits_foldl max_choice (by decide : Fits 8 i64Min) hall
  have hattributes : (toAttributes codec ||| if kind = .logAppendTime then 8 else 0) < 2 ^ 16 := by
    cases codec <;> cases kind <;> decide
  have hlast : Fits 4 (wrap 4 (entries.length - 1 : Nat)) := fits_wrap 4 _
  have hcount : Fits 4 (wrap 4 entries.length) := fits_wrap 4 _
  have hminus : Fits 4 (-1) ∧ Fits 8 (-1) ∧ Fits 2 (-1) ∧ Fits 1 2 := by decide
  simp only [RecordBatchHeader.Typed, batch, hbase, hmin, hmax, hattributes, hlast, hcount, hminus,
    and_self]

theorem sound_batch (hheaders : ∀ e ∈ entries, HeadersFit e.headers) :
    Sound c.batch := by
  refine ⟨typed_batch hc he, rfl, count_batch c, ?_⟩
  refine forall_mem_map.2 fun e h => ?_
  rw [records_eq hc] at h
  exact ⟨(he e h).2.2, fits_wrap 8 _, fits_wrap 4 _, hheaders e h⟩

end

theorem fromAttributes_batch (c : EntryBatch) :
    CompressionType.fromAttributes c.batch.header.attributes = c.compression := by
  dsimp only [batch]
  cases c.compression <;> cases c.timestampType <;> rfl

theorem toKafkaBatch_eq (k : BatchCodec) (zlib : List UInt8 → List UInt8) (c : EntryBatch)
    (h : c.compression = .none ∨ c.compression = .gzip) :
    c.toKafkaBatch k zlib = some (c.batch.encode k) := by
  have hnone : ∀ x, k.compress .none x = x := fun x => Option.some.inj (k.decompress_compress .none x)
  rw [toKafkaBatch, encode, recordsData, fromAttributes_batch]
  rcases h with h | h <;> simp [h, compressRecords, hnone]

/-- The difference of two 64-bit integers, added again. -/
theorem wrap_add_wrap_sub (hb : Fits 8 b) : wrap 8 (a + wrap 8 (b - a)) = b := by
  rw [wrap, wrap, Int.add_bmod_bmod, add_sub_cancel, ← wrap, wrap_eq hb]

/-- Cast to 32 bits it comes back exactly where it is one of 32 bits. -/
theorem wrap_add_wrap_sub_iff (hb : Fits 8 b) :
    wrap 8 (a + wrap 4 (b - a)) = b ↔ Fits 4 (wrap 8 (b - a)) := by
  have hnarrow : Fits 4 (wrap 4 (b - a)) := fits_wrap 4 _
  constructor
  · intro h
    have hwide : Fits 8 (wrap 4 (b - a)) := by
      rw [Fits] at hnarrow ⊢
      omega
    have hsub : wrap 8 (wrap 8 (a + wrap 4 (b - a)) - a) = wrap 4 (b - a) := by
      nth_rewrite 1 [wrap]
      nth_rewrite 1 [wrap]
      rw [Int.bmod_sub_bmod, add_sub_cancel_left, ← wrap, wrap_eq hwide]
    rw [h] at hsub
    rwa [hsub]
  · intro h
    have hsame : wrap 4 (b - a) = wrap 8 (b - a) := by
      rw [← wrap_eq h, wrap, wrap, wrap]
      exact (Int.bmod_bmod_of_dvd (by decide)).symm
    rw [hsame, wrap_add_wrap_sub hb]

theorem ofRecord_record_iff {c : EntryBatch} (he : EntryTyped e) (header : RecordBatchHeader)
    (hoffset : header.baseOffset = c.baseOffset) (htimestamp : header.baseTimestamp = c.baseTimestamp) :
    .ofRecord header (c.record e).measured = e ↔ Fits 4 (wrap 8 (e.offset - c.baseOffset)) := by
  rw [← wrap_add_wrap_sub_iff he.1]
  constructor
  · intro h
    rw [← hoffset]
    nth_rewrite 2 [hoffset]
    exact congrArg CanonicalRecordEntry.offset h
  · intro h
    have htime : wrap 8 (header.baseTimestamp + wrap 8 (e.timestamp - c.baseTimestamp)) =
        e.timestamp := by
      rw [htimestamp, wrap_add_wrap_sub he.2.1]
    rw [CanonicalRecordEntry.ofRecord, measured, record]
    dsimp only
    rw [htime, hoffset, h]

section
variable (k : BatchCodec) (hc : fromEntries entries codec kind = some c)
  (he : ∀ e ∈ entries, EntryTyped e) (hsize : SizeFits k c.batch)
include hc he hsize

theorem survives_iff_offsets (hheaders : ∀ e ∈ entries, HeadersFit e.headers) :
    (CanonicalRecord.fromKafkaBatch k.toCodecs (c.batch.encode k)).map (·.records) = some entries ↔
      ∀ e ∈ entries, Fits 4 (wrap 8 (e.offset - c.baseOffset)) := by
  have hrecords := records_eq hc
  rw [CanonicalRecord.fromKafkaBatch, decode_encode k (sound_batch hc he hheaders) hsize,
    map_some, map_some, Option.some.injEq]
  have hmap : (c.batch.filledIn k).records.map
        (CanonicalRecordEntry.ofRecord (c.batch.filledIn k).header) =
      entries.map fun e => .ofRecord (c.batch.filledIn k).header (c.record e).measured := by
    have hmeasured : (c.batch.filledIn k).records =
        entries.map (measured ∘ c.record) := by
      rw [← map_map, ← hrecords]
      rfl
    rw [hmeasured, map_map]
    rfl
  dsimp only
  rw [hmap]
  nth_rewrite 2 [← map_id entries]
  rw [map_inj_left]
  exact forall₂_congr fun e h => ofRecord_record_iff (he e h) _ rfl rfl

theorem headersFit_of_decode
    (h : decode k.toCodecs (c.batch.encode k) = some x) :
    ∀ e ∈ entries, HeadersFit e.headers := by
  obtain ⟨⟨hbody, hcount⟩, hlength⟩ := hsize
  rw [encode, length_encodeOver] at hlength
  have hrecords : c.batch.records = entries.map c.record := by
    rw [← records_eq hc]
    rfl
  have hcount' : c.batch.header.recordsCount = (0 + c.batch.records.length : Nat) := by
    rw [count_batch, wrap_eq (fits_length hcount), zero_add]
  rw [encode, ← append_nil (RecordBatchHeader.encodeOver _ _ _),
    decode_encodeOver_eq k (typed_batch hc he) rfl hlength, append_nil, Codecs.recordsOf, recordsData,
    k.decompress_compress, bind_some, hcount'] at h
  obtain ⟨records, hdecoded, -⟩ := map_eq_some_iff.1 h
  have htyped : ∀ r ∈ c.batch.records,
      Fits 1 r.attributes ∧ Fits 8 r.timestampDelta ∧ Fits 4 r.offsetDelta := by
    rw [hrecords]
    exact forall_mem_map.2 fun e hmem => ⟨(he e hmem).2.2, fits_wrap 8 _, fits_wrap 4 _⟩
  have hall := headersFit_of_decodeRecordsFrom (fun r hr => ⟨htyped r hr, hbody r hr⟩)
    (le_refl _) hdecoded
  rw [hrecords] at hall
  exact fun e hmem => hall (c.record e) (mem_map_of_mem hmem)

end

/-- A zstd reader does not take what `compress_records` writes under its number. -/
theorem zstd_not_read (k : BatchCodec) {c : EntryBatch} (ht : c.batch.header.Typed)
    (hzstd : c.compression = .zstd) (hdata : k.decompress .zstd data = none) :
    decode k.toCodecs (c.batch.header.encodeOver k.crc data) = none := by
  obtain ⟨length, checksum, -, -, hread⟩ := exists_read_encodeOver k ht data []
  rw [append_nil] at hread
  have hmagic : (RecordBatchHeader.read (c.batch.header.encodeOver k.crc data)).magic = 2 := by
    rw [hread]
    rfl
  refine Option.eq_none_iff_forall_ne_some.2 fun ⟨batch, consumed⟩ hdecode => ?_
  obtain ⟨-, -, -, -, hheader, hrecords⟩ :=
    (decode_eq_some (length_of_magic hmagic) (not_isLegacy hmagic)).1 hdecode
  have hcodec : CompressionType.fromAttributes batch.header.attributes = .zstd := by
    rw [hheader, hread]
    exact (fromAttributes_batch c).trans hzstd
  have hdrop : (c.batch.header.encodeOver k.crc data).drop 61 = data :=
    drop_left' (RecordBatchHeader.length_layout _)
  rw [Codecs.recordsOf, hcodec, hdrop, hdata] at hrecords
  cases hrecords

/-- The entries come back exactly where they are not compressed, or with gzip, their offsets are in
the 32-bit range of the first, and their headers are within the limits of the reader. -/
theorem entries_survive_iff (k : BatchCodec) (zlib : List UInt8 → List UInt8)
    (hzlib : ∀ x, k.decompress .zstd (zlib x) = none) (compression : CompressionType)
    (timestampType : TimestampType) (entries : List CanonicalRecordEntry) (c : EntryBatch)
    (hc : fromEntries entries compression timestampType = some c) (he : ∀ e ∈ entries, EntryTyped e)
    (hsize : SizeFits k c.batch) :
    Survives k zlib compression timestampType entries ↔
      (compression = .none ∨ compression = .gzip) ∧
        (∀ e ∈ entries, Fits 4 (wrap 8 (e.offset - c.baseOffset))) ∧
        ∀ e ∈ entries, HeadersFit e.headers := by
  have hcompression := compression_eq hc
  rw [Survives, hc, bind_some]
  constructor
  · intro h
    have hcodec : c.compression = .none ∨ c.compression = .gzip := by
      cases hwrite : c.compression with
      | none => exact .inl rfl
      | gzip => exact .inr rfl
      | snappy | lz4 =>
        rw [toKafkaBatch, hwrite] at h
        cases h
      | zstd =>
        rw [toKafkaBatch, hwrite, compressRecords, map_some, bind_some,
          CanonicalRecord.fromKafkaBatch, zstd_not_read k (typed_batch hc he) hwrite (hzlib _)] at h
        cases h
    rw [toKafkaBatch_eq k zlib c hcodec, bind_some] at h
    obtain ⟨canonical, hcanonical, -⟩ := map_eq_some_iff.1 h
    obtain ⟨x, hx, -⟩ := map_eq_some_iff.1 hcanonical
    have hheaders := headersFit_of_decode k hc he hsize hx
    refine ⟨hcompression ▸ hcodec, ?_, hheaders⟩
    exact (survives_iff_offsets k hc he hsize hheaders).1 h
  · rintro ⟨hcodec, hoffsets, hheaders⟩
    rw [toKafkaBatch_eq k zlib c (hcompression.symm ▸ hcodec), bind_some]
    exact (survives_iff_offsets k hc he hsize hheaders).2 hoffsets

theorem entries_survive_iff_gap : Survives marking (1 :: ·) .gzip .createTime
    [⟨5, -2 ^ 63, none, some [1], [], 0⟩, ⟨9, 2 ^ 63 - 1, some [2], none, [⟨"k", none⟩], 0⟩] := by
  refine (entries_survive_iff marking (1 :: ·) ?_ .gzip .createTime _ _ rfl (by decide)
    (by decide +kernel)).2 ⟨.inr rfl, by decide, by decide⟩
  exact fun _ => rfl

/-- There is no writer for snappy. -/
theorem snappy_not_written : ¬ ∀ (k : BatchCodec) (zlib : List UInt8 → List UInt8)
    (compression : CompressionType) (entries : List CanonicalRecordEntry), entries ≠ [] →
    (∀ e ∈ entries, EntryTyped e) → entries.Pairwise (·.offset < ·.offset) →
      Survives k zlib compression .createTime entries := by
  intro h
  have hnone : none = some _ := h marking id .snappy [⟨0, 0, none, none, [], 0⟩] (by decide)
    (by decide) (by decide)
  cases hnone

end EntryBatch

end ChronikStream
