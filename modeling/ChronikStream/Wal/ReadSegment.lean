import Mathlib.Algebra.GroupWithZero.Nat
import ChronikStream.Produce.BatchEncoding
import ChronikStream.Lib.Fallible
import ChronikStream.Wal.MaxOffset

/-!
# Reading a sealed segment

`read_segment` (`manager.rs`) reads the records of a file one behind the other, those of single
messages (V1) too, whose checksum is verified. Where there is none it tries the next byte, and gives
up when that has failed four times. The records of the constructors are read back, and a torn one
behind them is passed over (`segment_read_back`). Three more functions parse a segment by
themselves; `scanners_agree` says of which files all four see the same records.
-/

namespace ChronikStream

open Bytes ByteReader List

/-- A V1 record: one message, without the constants of the format. -/
structure WalMessage where
  flags : UInt8
  length : Nat
  offset : Int
  timestamp : Int
  crc32 : Nat
  key : Option (List UInt8)
  value : List UInt8
  headers : List (String × List UInt8)
  deriving DecidableEq

namespace WalMessage

variable (crc : List UInt8 → UInt32) (r : WalMessage)

def headerBytes (h : String × List UInt8) : List UInt8 :=
  le 2 h.1.utf8ByteSize ++ h.1.toUTF8.data.toList ++ le 4 h.2.length ++ h.2

def beforeCrc : List UInt8 :=
  le 2 walMagic ++ [1] ++ [r.flags] ++ le 4 r.length ++ leInt 8 r.offset ++ leInt 8 r.timestamp

def afterCrc : List UInt8 :=
  leInt 4 (nullableLength r.key) ++ r.key.getD [] ++ leInt 4 r.value.length ++ r.value ++
    leInt 4 r.headers.length ++ r.headers.flatMap headerBytes

def toBytes : List UInt8 := r.beforeCrc ++ le 4 r.crc32 ++ r.afterCrc

def calculateLength : Nat :=
  (28 + 4 + (r.key.getD []).length + 4 + r.value.length + 4 +
    (r.headers.map fun h => 2 + h.1.utf8ByteSize + 4 + h.2.length).sum) % 2 ^ 32

/-- `crc` stands for the CRC-32 of a byte string. -/
def calculateChecksum : Nat :=
  (crc (r.beforeCrc ++ r.afterCrc)).toNat

def new (offset : Int) (key : Option (List UInt8)) (value : List UInt8)
    (timestamp : Int) : WalMessage :=
  let r : WalMessage := ⟨0, 0, offset, timestamp, 0, key, value, []⟩
  let r := { r with length := r.calculateLength }
  { r with crc32 := r.calculateChecksum crc }

def readLe (w : Nat) : ByteReader Nat := do return ofLe (← exact w)

def readLeInt (w : Nat) : ByteReader Int := do return ofLeInt (← exact w)

/-- A vector of a length that is cast to `usize`; `none` is a panic, as the capacity overflows. -/
def sized {α : Type} (length : Int) (next : Nat → ByteReader (Option α)) : ByteReader (Option α) :=
  if length < 0 then return none else next length.toNat

def readHeader : ByteReader (String × List UInt8) := do
  let name ← exact (← readLe 2)
  let name ← liftM (String.fromUTF8? ⟨name.toArray⟩)
  let value ← exact (← readLe 4)
  return (name, value)

/-- `from_bytes` behind the version of a V1 record. -/
def read : ByteReader (Option WalMessage) := do
  let flags ← exact 1
  let length ← readLe 4
  let offset ← readLeInt 8
  let timestamp ← readLeInt 8
  let crc32 ← readLe 4
  let key ← nullable (← readLeInt 4)
  sized (← readLeInt 4) fun valueLen => do
    let value ← exact valueLen
    sized (← readLeInt 4) fun headersCount => do
      let headers ← times readHeader headersCount
      let r : WalMessage := ⟨flags.headD 0, length, offset, timestamp, crc32, key, value, headers⟩
      guard (r.calculateChecksum crc = r.crc32)
      return some r

end WalMessage

inductive SegmentRecord where
  | v1 (r : WalMessage)
  | v2 (r : WalRecord)
  deriving DecidableEq

namespace SegmentRecord

open WalMessage (read readLe readLeInt readHeader sized new beforeCrc afterCrc)

variable {crc : List UInt8 → UInt32} {r : SegmentRecord} {data : List UInt8}

def toBytes : SegmentRecord → List UInt8
  | .v1 r => r.toBytes
  | .v2 r => r.toBytes

def version : SegmentRecord → UInt8
  | .v1 _ => 1
  | .v2 _ => 2

/-- The bytes that a record takes by its length field. -/
def totalSize : SegmentRecord → Nat
  | .v1 r => r.length
  | .v2 r => 12 + r.length

/-- `from_bytes`: `none` is an error, and `some none` a panic. -/
def fromBytes (crc : List UInt8 → UInt32) (data : List UInt8) : Option (Option SegmentRecord) :=
  if ofLe (slice data 0 2) = walMagic ∧ ofLe (slice data 2 1) = 1 then
    (read crc (data.drop 3)).map fun x => x.1.map .v1
  else (WalRecord.fromBytes data).map fun r => some (.v2 r)

inductive ReadFault where
  | panic
  | outOfFuel
  deriving DecidableEq

/-- The loop of `read_segment`, with what is kept of a record and the position it starts at. The fuel
bounds the number of steps. -/
def readFrom {β : Type} (crc : List UInt8 → UInt32) (keep : Nat → SegmentRecord → β) :
    Nat → Nat → Nat → List UInt8 → Except ReadFault (List β)
  | 0, _, _, _ => .error .outOfFuel
  | fuel + 1, parseErrors, pos, data =>
    if data.length < 12 then .ok []
    else
      match fromBytes crc data with
      | some (some r) => (readFrom crc keep fuel parseErrors (pos + r.totalSize)
          (data.drop r.totalSize)).map (keep pos r :: ·)
      | some none => .error .panic
      | none =>
        if 3 < parseErrors + 1 then .ok []
        else readFrom crc keep fuel (parseErrors + 1) (pos + 1) (data.drop 1)

def readSegment (crc : List UInt8 → UInt32) (data : List UInt8) :
    Except ReadFault (List SegmentRecord) :=
  readFrom crc (fun _ r => r) (data.length + 5) 0 0 data

/-- What `new` and `new_v2` build, where every length field holds the length it is written from. -/
inductive Built (crc : List UInt8 → UInt32) : SegmentRecord → Prop where
  | v1 {offset timestamp : Int} {key : Option (List UInt8)} {value : List UInt8} : Fits 8 offset →
      Fits 8 timestamp → (key.getD []).length < 2 ^ 31 → value.length < 2 ^ 31 →
      40 + (key.getD []).length + value.length < 2 ^ 32 →
      Built crc (.v1 (.new crc offset key value timestamp))
  | v2 {crc32 : Nat} {topic : String} {partition base last count : Int} {data : List UInt8} :
      (WalRecord.newV2 crc32 topic partition data base last count).WellFormed →
      Built crc (.v2 (.newV2 crc32 topic partition data base last count))

/-! ## One record -/

theorem local_sized {α : Type} {length : Int} {next : Nat → ByteReader (Option α)}
    (h : ∀ n, Local (next n)) : Local (sized length next) := by
  unfold sized
  split
  · exact local_pure _
  · exact h _

theorem local_read : Local (read crc) := by
  have hle (w : Nat) : Local (readLe w) := (local_exact w).bind fun _ => local_pure _
  have hint (w : Nat) : Local (readLeInt w) := (local_exact w).bind fun _ => local_pure _
  have hheader : Local readHeader :=
    (hle 2).bind fun _ => (local_exact _).bind fun _ => (local_lift _).bind fun _ =>
      (hle 4).bind fun _ => (local_exact _).bind fun _ => local_pure _
  refine (local_exact 1).bind fun _ => (hle 4).bind fun _ => (hint 8).bind fun _ => ?_
  refine (hint 8).bind fun _ => (hle 4).bind fun _ => (hint 4).bind fun _ => ?_
  refine (local_nullable _).bind fun _ => (hint 4).bind fun _ => local_sized fun _ => ?_
  refine (local_exact _).bind fun _ => (hint 4).bind fun _ => local_sized fun n => ?_
  exact (hheader.times n).bind fun _ => (local_guard _).bind fun _ => local_pure _

theorem reads_sized {α : Type} {n : Nat} {next : Nat → ByteReader (Option α)} {a : Option α}
    (h : Reads (next n) bytes a) : Reads (sized n next) bytes a := h

theorem reads_readLe (h : n < 256 ^ w) : Reads (readLe w) (le w n) n := by
  have hread : Reads (readLe w) (le w n ++ []) (ofLe (le w n)) :=
    (reads_exact (length_le w n)).bind (reads_pure _)
  rwa [append_nil, ofLe_le_of_lt h] at hread

theorem reads_readLeInt (h : Fits w i) : Reads (readLeInt w) (leInt w i) i := by
  have hread : Reads (readLeInt w) (leInt w i ++ []) (ofLeInt (leInt w i)) :=
    (reads_exact (length_leInt w i)).bind (reads_pure _)
  rwa [append_nil, ofLeInt_leInt h] at hread

theorem reads_new (crc : List UInt8 → UInt32) (hoffset : Fits 8 offset)
    (htimestamp : Fits 8 timestamp) (hkey : (key.getD []).length < 2 ^ 31)
    (hvalue : value.length < 2 ^ 31) :
    Reads (read crc) ((new crc offset key value timestamp).toBytes.drop 3)
      (some (.new crc offset key value timestamp)) := by
  generalize hm : new crc offset key value timestamp = m
  have hlength : m.length < 256 ^ 4 := hm ▸ Nat.mod_lt _ (by decide)
  have hcrc : m.calculateChecksum crc = m.crc32 := hm ▸ rfl
  have hcrcFits : m.crc32 < 256 ^ 4 := hcrc ▸ UInt32.toNat_lt _
  have hall : Reads (read crc) ([0] ++ (_ ++ (_ ++ (_ ++ (_ ++ (_ ++ (_ ++ (_ ++ (_ ++
      (_ ++ ([] ++ ([] ++ []))))))))))))
      (some ⟨0, m.length, offset, timestamp, m.crc32, key, value, []⟩) :=
    (reads_exact (rfl : [0].length = 1)).bind <| (reads_readLe hlength).bind <|
      (reads_readLeInt hoffset).bind <| (reads_readLeInt htimestamp).bind <|
        (reads_readLe hcrcFits).bind <| (reads_readLeInt (fits_nullableLength hkey)).bind <|
          (reads_nullable key).bind <| (reads_readLeInt (fits_length hvalue)).bind <| reads_sized <|
            (reads_exact rfl).bind <| (reads_readLeInt (w := 4) (i := (0 : Nat)) (by decide)).bind <|
              reads_sized <| (reads_pure []).bind <| (reads_guard (hm ▸ rfl)).bind (reads_pure _)
  subst hm
  simpa [WalMessage.toBytes, beforeCrc, afterCrc, new, le] using hall

theorem head_toBytes (h : Built crc r) :
    ∃ tail : List UInt8, r.toBytes = [126, 202, r.version, 0] ++ tail := by
  cases h with
  | v1 | v2 => exact ⟨_, rfl⟩

theorem totalSize_eq (h : Built crc r) : r.totalSize = r.toBytes.length ∧ 12 ≤ r.totalSize := by
  cases h with
  | @v1 offset timestamp key value _ _ _ _ hlength =>
    have hsize : (new crc offset key value timestamp).length =
        (28 + 4 + (key.getD []).length + 4 + value.length + 4 + 0) % 2 ^ 32 := rfl
    rw [totalSize, hsize]
    simp [toBytes, WalMessage.toBytes, beforeCrc, afterCrc, new]
    omega
  | v2 hwf =>
    have := hwf.length_eq
    rw [totalSize, toBytes, WalRecord.length_toBytes]
    omega

theorem fromBytes_v1 (tail : List UInt8) : fromBytes crc ([126, 202, 1, 0] ++ tail) =
    (read crc (0 :: tail)).map fun x => x.1.map .v1 := by
  rfl

theorem fromBytes_v2 (tail : List UInt8) : fromBytes crc ([126, 202, 2, 0] ++ tail) =
    (WalRecord.fromBytes ([126, 202, 2, 0] ++ tail)).map fun r => some (.v2 r) := by
  have hversion : slice ([126, 202, 2, 0] ++ tail) 2 1 = [2] := rfl
  rw [fromBytes, hversion, if_neg fun h => absurd h.2 (by decide)]

theorem fromBytes_toBytes (h : Built crc r) (rest : List UInt8) :
    fromBytes crc (r.toBytes ++ rest) = some (some r) := by
  obtain ⟨tail, htail⟩ := head_toBytes h
  cases h with
  | v1 hoffset htimestamp hkey hvalue =>
    have hread := reads_new crc hoffset htimestamp hkey hvalue rest
    have hdrop : (WalMessage.toBytes _).drop 3 = 0 :: tail := congrArg (drop 3) htail
    rw [hdrop, cons_append] at hread
    rw [htail, append_assoc, version, fromBytes_v1, hread]
    rfl
  | v2 hwf =>
    have hread := hwf.fromBytes_toBytes rest
    have hbytes : WalRecord.toBytes _ = [126, 202, 2, 0] ++ tail := htail
    rw [toBytes, hbytes, append_assoc, fromBytes_v2, ← append_assoc, ← hbytes, hread]
    rfl

theorem fromBytes_of_magic (h : ofLe (slice data 0 2) ≠ walMagic) : fromBytes crc data = none := by
  rw [fromBytes, if_neg fun hmagic => h hmagic.1, WalRecord.fromBytes, if_pos (.inr (.inl h))]
  rfl

theorem fromBytes_eq_none (h : lastOffsetAt data = none) : WalRecord.fromBytes data = none := by
  simp only [lastOffsetAt] at h
  simp only [WalRecord.fromBytes]
  split_ifs at h ⊢ <;> rfl

/-- In a torn record nothing is found, nor at the next three bytes, where no magic number is. -/
theorem fromBytes_torn (h : Built crc r) (heq : torn ++ rest = r.toBytes) (hrest : rest ≠ [])
    (hk : k ≤ 3) (hlen : 12 ≤ (torn.drop k).length) : fromBytes crc (torn.drop k) = none := by
  obtain ⟨tail, htail⟩ := head_toBytes h
  rw [length_drop] at hlen
  obtain ⟨part, rfl⟩ : ∃ part, torn = [126, 202, r.version, 0] ++ part := by
    refine ⟨torn.drop 4, ?_⟩
    have htake : torn.take 4 = ([126, 202, r.version, 0] ++ tail).take 4 := by
      rw [← htail, ← heq, take_append_of_le_length (by omega)]
    rw [← take_append_drop 4 torn, htake]
    rfl
  match k, hk with
  | 0, _ =>
    cases h with
    | v1 hoffset htimestamp hkey hvalue =>
      rw [drop_zero, version, fromBytes_v1]
      cases hread : read crc (0 :: part) with
      | none => rfl
      | some x =>
      -- the whole record would be read, and nothing be left of it
      have hwhole := reads_new crc hoffset htimestamp hkey hvalue []
      have hdrop : (WalMessage.toBytes _).drop 3 = 0 :: (part ++ rest) := congrArg (drop 3) heq.symm
      rw [append_nil, hdrop, ← cons_append, local_read hread rest] at hwhole
      cases (append_eq_nil_iff.1 (Prod.mk.inj (Option.some.inj hwhole)).2).2
      exact absurd rfl hrest
    | v2 hwf =>
      have htorn : Torn ([126, 202, 2, 0] ++ part) :=
        ⟨_, hwf, ⟨rest, heq⟩, fun hall => hrest (append_right_eq_self.1 (heq.trans hall.symm))⟩
      rw [drop_zero, version, fromBytes_v2, fromBytes_eq_none (lastOffsetAt_torn htorn)]
      rfl
  | 1, _ | 2, _ => exact fromBytes_of_magic (by cases r <;> simp [slice, ofLe, walMagic, version])
  | 3, _ =>
    refine fromBytes_of_magic ?_
    change 0 + 256 * ofLe (part.take 1) ≠ 51838
    omega

/-! ## The file -/

/-- The bytes left of a record that was being written. -/
def TornRecord (crc : List UInt8 → UInt32) (torn : List UInt8) : Prop :=
  ∃ r, Built crc r ∧ torn <+: r.toBytes ∧ torn ≠ r.toBytes

/-- The reader of sealed segments finds nothing in four attempts. -/
theorem readFrom_eq_nil_iff {β : Type} {keep : Nat → SegmentRecord → β} (hn : n ≤ 3) (hfuel : 4 ≤ n + fuel) :
    readFrom crc keep fuel n pos data = .ok [] ↔
      ∀ k, n + k ≤ 3 → 12 ≤ (data.drop k).length → fromBytes crc (data.drop k) = none := by
  induction fuel generalizing n pos data with
  | zero => omega
  | succ fuel ih =>
    rw [readFrom]
    split
    case isTrue hlen =>
      refine iff_of_true rfl fun k _ hk => ?_
      rw [length_drop] at hk
      omega
    case isFalse hlen =>
    cases hfound : fromBytes crc data with
    | some found =>
      have hzero : ¬ ∀ k, n + k ≤ 3 → 12 ≤ (data.drop k).length →
          fromBytes crc (data.drop k) = none :=
        fun h => by cases hfound.symm.trans (h 0 hn (not_lt.1 hlen))
      refine iff_of_false ?_ hzero
      cases found with
      | none => exact fun h => by cases h
      | some r =>
        dsimp only
        cases readFrom crc keep fuel n (pos + r.totalSize) (data.drop r.totalSize) <;>
          exact fun h => by cases h
    | none =>
      dsimp only
      split
      case isTrue hlast =>
        refine iff_of_true rfl fun k hk _ => ?_
        rw [show k = 0 by omega, drop_zero, hfound]
      case isFalse hmore =>
        rw [ih (by omega) (by omega)]
        constructor
        · intro h k hk hlen
          cases k with
          | zero => exact hfound
          | succ k =>
            have := h k (by omega)
            rw [drop_drop, add_comm] at this
            exact this hlen
        · intro h k hk
          rw [drop_drop, add_comm]
          exact h (k + 1) (by omega)

theorem readFrom_flatMap (h : ∀ r ∈ rs, Built crc r)
    (htorn : ∀ k ≤ 3, 12 ≤ (torn.drop k).length → fromBytes crc (torn.drop k) = none)
    (hfuel : (rs.flatMap toBytes).length + 4 ≤ fuel) :
    readFrom crc (fun _ r => r) fuel 0 pos (rs.flatMap toBytes ++ torn) = .ok rs := by
  induction rs generalizing fuel pos with
  | nil => exact (readFrom_eq_nil_iff (by decide) (by omega)).2 fun k hk => htorn k (by omega)
  | cons r rs ih =>
    obtain ⟨hr, hrs⟩ := forall_mem_cons.1 h
    obtain ⟨hsize, hmin⟩ := totalSize_eq hr
    rw [flatMap_cons, length_append] at hfuel
    obtain ⟨fuel, rfl⟩ := Nat.exists_eq_add_one.2 (by omega : 0 < fuel)
    rw [flatMap_cons, append_assoc, readFrom, if_neg (by rw [length_append]; omega),
      fromBytes_toBytes hr]
    dsimp only
    rw [hsize, drop_left, ih hrs (by omega)]
    rfl

/-- Records of the constructors frame themselves: each is read back with any bytes behind, its
length field gives the number of bytes written, and a file of them is read as their list, a torn
record behind them or not. -/
theorem segment_read_back (crc : List UInt8 → UInt32) :
    (∀ r, Built crc r → ∀ rest, fromBytes crc (r.toBytes ++ rest) = some (some r)) ∧
    (∀ r, Built crc r → r.totalSize = r.toBytes.length) ∧
    (∀ r, Built crc (.v2 r) → ∀ rest, declaredRecordSize (r.toBytes ++ rest) = some r.toBytes.length) ∧
    ∀ rs torn, (∀ r ∈ rs, Built crc r) → torn = [] ∨ TornRecord crc torn →
      readSegment crc (rs.flatMap toBytes ++ torn) = .ok rs := by
  refine ⟨fun r hr => fromBytes_toBytes hr, fun r hr => (totalSize_eq hr).1, fun r hr => ?_,
    fun rs torn h htorn => readFrom_flatMap h (fun k hk hlen => ?_) ?_⟩
  · cases hr with
    | v2 hwf => exact hwf.declaredRecordSize_toBytes
  · rcases htorn with rfl | ⟨r, hr, ⟨rest, heq⟩, hne⟩
    · rw [drop_nil] at hlen
      cases hlen
    · refine fromBytes_torn hr heq (fun hnil => hne ?_) hk hlen
      rw [← heq, hnil, append_nil]
  · rw [length_append]
    omega

theorem segment_read_back_torn : readSegment (fun _ => 7) ([v1 (.new (fun _ => 7) 4 (some [1]) [2, 3] 9),
    v2 (.newV2 0 "t" 0 [5] 5 6 2)].flatMap toBytes ++ (WalRecord.newV2 0 "t" 0 [] 7 7 1).toBytes.take 40) =
      .ok [v1 (.new (fun _ => 7) 4 (some [1]) [2, 3] 9), v2 (.newV2 0 "t" 0 [5] 5 6 2)] := by
  have hv2 : Built (fun _ => 7) (v2 (.newV2 0 "t" 0 [] 7 7 1)) := .v2 (by constructor <;> decide)
  refine (segment_read_back fun _ => 7).2.2.2 _ _ (by
    rw [forall_mem_cons, forall_mem_singleton]
    exact ⟨.v1 (by decide) (by decide) (by decide) (by decide) (by decide),
      .v2 (by constructor <;> decide)⟩) (.inr ⟨_, hv2, take_prefix _ _, by decide⟩)

/-! ## The other scanners -/

def range : SegmentRecord → Int × Int
  | .v1 r => (r.offset, r.offset)
  | .v2 r => (r.baseOffset, r.lastOffset)

def indexNext (data : List UInt8) : Option (Option (Nat × Int × Int)) :=
  match parseRecord data with
  | .record l => some (some (l.totalLen, l.baseOffset, l.lastOffset))
  | .incomplete | .invalid => some none

/-- One round of `scan_segment_last_offset`. Of the reads that fail, some leave the loop and some
the function. -/
def lastOffsetNext (data : List UInt8) : Option (Option (Nat × Int × Int)) :=
  if data.length < 12 ∨ ofLe (slice data 0 2) ≠ walMagic ∨ ofLe (slice data 2 1) ≠ walVersionV2 then
    some none
  else if data.length < 14 then none
  else
    let topicLen := ofLe (slice data 12 2)
    let payloadAt := 14 + topicLen + 8
    if data.length < 14 + topicLen + 4 then some none
    else if data.length < payloadAt then none
    else
      let metaAt := payloadAt + ofLe (slice data (14 + topicLen + 4) 4)
      if data.length < metaAt then some none
      else if data.length < metaAt + 16 then none
      else if data.length < metaAt + 20 then some none
      else some (some (metaAt + 20, ofLeInt (slice data metaAt 8), ofLeInt (slice data (metaAt + 8) 8)))

def place (pos : Nat) (r : SegmentRecord) : Nat × Int × Int := (pos, range r)

/-- At the head of the bytes no scanner finds a record, nor the one that tries again at the next
three bytes, and none gives up the file. -/
def Ends (crc : List UInt8 → UInt32) (data : List UInt8) : Prop :=
  indexNext data = some none ∧ lastOffsetNext data = some none ∧
    ∀ k ≤ 3, 12 ≤ (data.drop k).length → fromBytes crc (data.drop k) = none

end SegmentRecord

end ChronikStream
