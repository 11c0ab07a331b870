import ChronikStream.Produce.BatchEncoding

/-!
# Zigzag varints, bit by bit

The encoders and decoders of `kafka_records` and of `canonical_record`, on integers of 32 and of 64
bits. The loops of the decoders refuse the same bytes, though they compare the shift with different
limits (`readFrom_eq`). The decoders of `canonical_record` keep the zigzag value in a signed integer,
whose shift copies the top bit, so they misread the integers for which that bit is set
(`varint_codecs_differ`).
-/

namespace ChronikStream.Varints

open BitVec ByteReader List Protobuf

variable {w : Nat}

/-! ## Encoders -/

def zigzagBits (value : BitVec w) : BitVec w := value <<< 1 ^^^ value.sshiftRight (w - 1)

def encode (value : BitVec w) : List UInt8 := encodeVarint (zigzagBits value).toNat

def encodeVarint : BitVec 32 → List UInt8 := encode

def encodeVarlong : BitVec 64 → List UInt8 := encode

def writeVarint : BitVec 32 → List UInt8 := encode

def writeVarlong : BitVec 64 → List UInt8 := encode

/-! ## Decoders -/

def unzigzagBits (value : BitVec w) : BitVec w := value >>> 1 ^^^ -(value &&& 1)

/-- The same on a signed integer. -/
def unzigzagSigned (value : BitVec w) : BitVec w := value.sshiftRight 1 ^^^ -(value &&& 1)

def decode : ByteReader (BitVec w) :=
  fun bytes => (varintFrom w 0 bytes).map fun x => (unzigzagBits (.ofNat w x.1), x.2)

def decodeVarint : ByteReader (BitVec 32) := decode

def decodeVarlong : ByteReader (BitVec 64) := decode

/-- The groups of 7 bits of `read_varint` and `read_varlong`, which refuse a shift above `limit`. -/
def readFrom (bits limit : Nat) : Nat → List UInt8 → Option (Nat × List UInt8)
  | _, [] => none
  | shift, b :: bs =>
    let group := b.toNat % 128 * 2 ^ shift % 2 ^ bits
    if b.toNat < 128 then some (group, bs)
    else if limit < shift + 7 then none
    else (readFrom bits limit (shift + 7) bs).map fun x => (group + x.1, x.2)

def read (limit : Nat) : ByteReader (BitVec w) :=
  fun bytes => (readFrom w limit 0 bytes).map fun x => (unzigzagSigned (.ofNat w x.1), x.2)

def readVarint : ByteReader (BitVec 32) := read 28

def readVarlong : ByteReader (BitVec 64) := read 63

/-! ## Bits -/

theorem getLsbD_zigzagBits (value : BitVec w) (hi : i < w) :
    (zigzagBits value).getLsbD i = ((decide (i ≠ 0) && value.getLsbD (i - 1)) ^^ value.msb) := by
  have hshift : w - 1 + i < w ↔ i = 0 := by omega
  have hmsb := msb_eq_getLsbD_last value
  simp [zigzagBits, hi]
  grind

theorem getLsbD_neg_and_one (v : BitVec w) (hi : i < w) : (-(v &&& 1)).getLsbD i = v.getLsbD 0 := by
  have hbit : ∀ j, (v &&& 1#w).getLsbD j = (decide (j = 0) && v.getLsbD 0) := by
    intro j
    simp
    grind
  rw [getLsbD_neg]
  cases i with
  | zero => simp [hbit]
  | succ i => simp [hbit, hi]

theorem unzigzagBits_zigzagBits (value : BitVec w) : unzigzagBits (zigzagBits value) = value := by
  apply eq_of_getLsbD_eq
  intro i hi
  rw [unzigzagBits, getLsbD_xor, getLsbD_ushiftRight, getLsbD_neg_and_one _ hi,
    getLsbD_zigzagBits value (Nat.zero_lt_of_lt hi)]
  by_cases hlast : 1 + i < w
  · rw [getLsbD_zigzagBits value hlast]
    simp
  -- nothing is shifted into the top bit, and the sign is there
  · have htop : i = w - 1 := by omega
    rw [getLsbD_of_ge _ (1 + i) (by omega), htop, msb_eq_getLsbD_last]
    simp

/-! ## Loops -/

theorem readFrom_eq (h : ∀ n, limit < 7 * n ↔ bits ≤ 7 * n) (n : Nat) :
    readFrom bits limit (7 * n) bytes = varintFrom bits (7 * n) bytes := by
  induction bytes generalizing n with
  | nil => rfl
  | cons b bytes ih => simp only [readFrom, varintFrom, ← Nat.mul_succ, h, ih]

theorem length_encodeVarintFuel (hn : n < 128 ^ (k + 1)) (fuel : Nat) :
    (encodeVarintFuel fuel n).length ≤ k + 1 := by
  induction fuel generalizing n k with
  | zero => exact Nat.zero_le _
  | succ fuel ih =>
    rw [encodeVarintFuel]
    split
    · exact Nat.le_add_left ..
    cases k with
    | zero => omega
    | succ k => exact Nat.succ_le_succ (ih (by omega))

/-- The two ways to undo the zigzag encoding differ in the top bit, which the arithmetic shift copies. -/
theorem unzigzagBits_eq_unzigzagSigned (v : BitVec w) :
    unzigzagBits v = unzigzagSigned v ↔ v.msb = false := by
  rw [unzigzagBits, unzigzagSigned, xor_left_inj]
  constructor
  · intro h
    have htop := congrArg BitVec.msb h
    rwa [msb_ushiftRight, msb_sshiftRight, eq_comm] at htop
  · intro h
    rw [sshiftRight_eq_of_msb_false h]

/-- The encodings of `value` are short, and the decoders undo them; they fail on the same bytes and
leave the same rest. That of `canonical_record` undoes it, and agrees with the other one on `bytes`,
exactly where the top bit of the zigzag value is clear. -/
def InvertAndAgree (encode write : BitVec w → List UInt8) (decode read : ByteReader (BitVec w))
    (size : Nat) (value : BitVec w) (rest bytes : List UInt8) : Prop :=
  ((encode value).length ≤ size ∧ (write value).length ≤ size ∧
    decode (encode value ++ rest) = some (value, rest) ∧
    (read (write value ++ rest) = some (value, rest) ↔ (zigzagBits value).msb = false)) ∧
  (decode bytes).map (·.2) = (read bytes).map (·.2) ∧
    (decode bytes = read bytes ↔ ∀ x ∈ varintFrom w 0 bytes, (BitVec.ofNat w x.1).msb = false)

theorem invertAndAgree (hw : w ≤ 64) (hlimit : ∀ n, limit < 7 * n ↔ w ≤ 7 * n)
    (hsize : 2 ^ w ≤ 128 ^ (size + 1)) (value : BitVec w) :
    InvertAndAgree encode encode decode (read limit) (size + 1) value rest bytes := by
  have hread : ∀ bytes, (read limit : ByteReader (BitVec w)) bytes =
      (varintFrom w 0 bytes).map fun x => (unzigzagSigned (.ofNat w x.1), x.2) := by
    intro bytes
    rw [read, readFrom_eq hlimit 0]
  have hagree : ∀ bytes, decode bytes = (read limit : ByteReader (BitVec w)) bytes ↔
      ∀ x ∈ varintFrom w 0 bytes, (BitVec.ofNat w x.1).msb = false := by
    intro bytes
    rw [hread, decode]
    cases varintFrom w 0 bytes with
    | none => simp
    | some x => simp [unzigzagBits_eq_unzigzagSigned]
  refine ⟨?_, ?_, hagree bytes⟩
  case refine_2 =>
    rw [hread, decode, Option.map_map, Option.map_map]
    rfl
  have hlt := (zigzagBits value).isLt
  have hten : 2 ^ w ≤ 128 ^ (9 + 1) := (Nat.pow_le_pow_right (by decide) hw).trans (by decide)
  have hraw : varintFrom w 0 (encode value ++ rest) = some ((zigzagBits value).toNat, rest) := by
    rw [← mul_one (zigzagBits value).toNat, ← Nat.pow_zero 2]
    exact varintFrom_encodeVarintFuel (by omega) (lt_of_lt_of_le hlt hten)
  have hdecode : decode (encode value ++ rest) = some (value, rest) := by
    rw [decode, hraw, Option.map_some, ofNat_toNat, setWidth_eq, unzigzagBits_zigzagBits]
  have hshort := length_encodeVarintFuel (lt_of_lt_of_le hlt hsize) 10
  refine ⟨hshort, hshort, hdecode, ?_⟩
  rw [← hdecode, eq_comm, hagree, hraw]
  simp

/-- The codecs of `kafka_records` invert; those of `canonical_record` do, and agree with them, exactly
where the top bit of the zigzag value is clear. -/
theorem varint_codecs_invert_and_agree (i : BitVec 32) (l : BitVec 64) (rest bytes : List UInt8) :
    InvertAndAgree encodeVarint writeVarint decodeVarint readVarint 5 i rest bytes ∧
    InvertAndAgree encodeVarlong writeVarlong decodeVarlong readVarlong 10 l rest bytes :=
  ⟨invertAndAgree (by decide) (fun n => by omega) (by decide) i,
    invertAndAgree (by decide) (fun n => by omega) (by decide) l⟩

/-- The first integers for which the top bit is set are read back as negative ones. -/
theorem varint_codecs_differ :
    readVarint (writeVarint (1 <<< 30)) = some (-(1#32 <<< 30), []) ∧
    decodeVarint (writeVarint (1 <<< 30)) = some (1#32 <<< 30, []) ∧
    readVarlong (writeVarlong (1 <<< 62)) = some (-(1#64 <<< 62), []) ∧
    decodeVarlong (writeVarlong (1 <<< 62)) = some (1#64 <<< 62, []) := by
  decide +kernel

end ChronikStream.Varints
