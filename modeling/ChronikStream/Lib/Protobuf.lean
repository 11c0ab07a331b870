import Mathlib.Algebra.Group.Nat.Defs
import Mathlib.Data.List.Basic
import Mathlib.Data.Nat.Basic

/-!
# The protobuf wire format

`parseFields` reads the numbered fields of a byte string and `encodeFields` writes them
(`parseFields_encodeFields`); a message is decoded by merging its fields into the default one
(`decodeWith`). Groups, which no proto3 message has, are refused.
-/

namespace Protobuf

open UInt8
open List hiding merge

/-! ## Varints -/

/-- The base-128 digits of `n`, least significant first, each but the last with the high bit set; at
most `fuel` of them. -/
def encodeVarintFuel : Nat → Nat → List UInt8
  | 0, _ => []
  | fuel + 1, n =>
    if n < 128 then [ofNat n] else ofNat (n % 128 + 128) :: encodeVarintFuel fuel (n / 128)

/-- A varint of at most `fuel` bytes. The tenth may only hold the last bit of a 64-bit number. -/
def decodeVarintFuel : Nat → List UInt8 → Option (Nat × List UInt8)
  | 0, _ => none
  | _ + 1, [] => none
  | fuel + 1, b :: bs =>
    if b.toNat < 128 then
      if fuel = 0 ∧ 2 ≤ b.toNat then none else some (b.toNat, bs)
    else (decodeVarintFuel fuel bs).map fun x => (b.toNat - 128 + 128 * x.1, x.2)

def encodeVarint (n : Nat) : List UInt8 := encodeVarintFuel 10 n

def decodeVarint (bs : List UInt8) : Option (Nat × List UInt8) := decodeVarintFuel 10 bs

section

theorem toNat_ofNat_of_lt (h : n < 256) : (ofNat n).toNat = n := Nat.mod_eq_of_lt h

theorem decodeVarintFuel_encodeVarintFuel (h : n < 2 * 128 ^ fuel) (rest : List UInt8) :
    decodeVarintFuel (fuel + 1) (encodeVarintFuel (fuel + 1) n ++ rest) = some (n, rest) := by
  induction fuel generalizing n with
  | zero =>
    have hbyte : (ofNat n).toNat = n := toNat_ofNat_of_lt (by omega)
    rw [encodeVarintFuel, if_pos (by omega), singleton_append, decodeVarintFuel, hbyte,
      if_pos (by omega), if_neg (by omega)]
  | succ fuel ih =>
    rw [encodeVarintFuel]
    split
    case isTrue hn =>
      have hbyte : (ofNat n).toNat = n := toNat_ofNat_of_lt (by omega)
      rw [singleton_append, decodeVarintFuel, hbyte, if_pos hn, if_neg (by omega)]
    case isFalse hn =>
    have hbyte : (ofNat (n % 128 + 128)).toNat = n % 128 + 128 := toNat_ofNat_of_lt (by omega)
    have hdiv : n / 128 < 2 * 128 ^ fuel := by
      omega
    rw [cons_append, decodeVarintFuel, hbyte, ih hdiv, Option.map_some]
    refine congrArg some (Prod.ext ?_ rfl)
    omega

theorem decodeVarint_encodeVarint (h : n < 2 ^ 64) (rest : List UInt8) :
    decodeVarint (encodeVarint n ++ rest) = some (n, rest) :=
  decodeVarintFuel_encodeVarintFuel (h : n < 2 * 128 ^ 9) rest

theorem encodeVarint_ne_nil : encodeVarint n ≠ [] := by
  rw [encodeVarint, encodeVarintFuel]
  split <;> exact cons_ne_nil _ _

end

/-! ## Fields -/

inductive WireValue where
  | varint (n : Nat)
  | fixed64 (bytes : List UInt8)
  | bytes (bytes : List UInt8)
  | fixed32 (bytes : List UInt8)
  deriving DecidableEq

abbrev Field := Nat × WireValue

namespace WireValue

def wireType : WireValue → Nat
  | .varint _ => 0
  | .fixed64 _ => 1
  | .bytes _ => 2
  | .fixed32 _ => 5

def encode : WireValue → List UInt8
  | .varint n => encodeVarint n
  | .fixed64 bs | .fixed32 bs => bs
  | .bytes bs => encodeVarint bs.length ++ bs

/-- The value can be written: a varint has 64 bits, and so has a length. -/
def Valid : WireValue → Prop
  | .varint n => n < 2 ^ 64
  | .fixed64 bs => bs.length = 8
  | .bytes bs => bs.length < 2 ^ 64
  | .fixed32 bs => bs.length = 4

def takeBytes (n : Nat) (bs : List UInt8) : Option (List UInt8 × List UInt8) :=
  if n ≤ bs.length then some (bs.take n, bs.drop n) else none

/-- The value of the wire type at the start of `bs`, with the rest. -/
def decode (wireType : Nat) (bs : List UInt8) : Option (WireValue × List UInt8) :=
  match wireType with
  | 0 => (decodeVarint bs).map fun x => (.varint x.1, x.2)
  | 1 => (takeBytes 8 bs).map fun x => (.fixed64 x.1, x.2)
  | 2 => (decodeVarint bs).bind fun x => (takeBytes x.1 x.2).map fun y => (.bytes y.1, y.2)
  | 5 => (takeBytes 4 bs).map fun x => (.fixed32 x.1, x.2)
  | _ => none

theorem takeBytes_append (bs rest : List UInt8) :
    takeBytes bs.length (bs ++ rest) = some (bs, rest) := by
  rw [takeBytes, if_pos (by rw [length_append]; omega), take_left, drop_left]

theorem decode_encode (h : v.Valid) (rest : List UInt8) :
    decode v.wireType (v.encode ++ rest) = some (v, rest) := by
  cases v with
  | varint n =>
    show (decodeVarint (encodeVarint n ++ rest)).map _ = _
    rw [decodeVarint_encodeVarint h, Option.map_some]
  | fixed64 bs =>
    have hbs : takeBytes 8 (bs ++ rest) = some (bs, rest) := by
      rw [← (h : bs.length = 8)]
      exact takeBytes_append bs rest
    show (takeBytes 8 (bs ++ rest)).map _ = _
    rw [hbs, Option.map_some]
  | bytes bs =>
    show (decodeVarint (encodeVarint bs.length ++ bs ++ rest)).bind _ = _
    rw [append_assoc, decodeVarint_encodeVarint h, Option.bind_some, takeBytes_append,
      Option.map_some]
  | fixed32 bs =>
    have hbs : takeBytes 4 (bs ++ rest) = some (bs, rest) := by
      rw [← (h : bs.length = 4)]
      exact takeBytes_append bs rest
    show (takeBytes 4 (bs ++ rest)).map _ = _
    rw [hbs, Option.map_some]

end WireValue

def encodeField (f : Field) : List UInt8 :=
  encodeVarint (f.1 * 8 + f.2.wireType) ++ f.2.encode

def encodeFields (fs : List Field) : List UInt8 := fs.flatMap encodeField

/-- A field number is positive and has 29 bits, and the value can be written. -/
structure ValidField (f : Field) : Prop where
  pos : 0 < f.1
  lt : f.1 < 2 ^ 29
  value : f.2.Valid

/-- One field at the start of `bs`, with the rest. -/
def parseField (bs : List UInt8) : Option (Field × List UInt8) :=
  (decodeVarint bs).bind fun key =>
    if key.1 < 2 ^ 32 ∧ 0 < key.1 / 8 then
      (WireValue.decode (key.1 % 8) key.2).map fun x => ((key.1 / 8, x.1), x.2)
    else none

/-- The fields of a byte string. The fuel bounds their number. -/
def parseFieldsFuel : Nat → List UInt8 → Option (List Field)
  | _, [] => some []
  | 0, _ :: _ => none
  | fuel + 1, b :: bs =>
    (parseField (b :: bs)).bind fun x => (parseFieldsFuel fuel x.2).map (x.1 :: ·)

def parseFields (bs : List UInt8) : Option (List Field) := parseFieldsFuel bs.length bs

section

theorem WireValue.wireType_lt (v : WireValue) : v.wireType < 8 := by
  cases v <;> simp [wireType]

theorem parseField_encodeField (h : ValidField f) (rest : List UInt8) :
    parseField (encodeField f ++ rest) = some (f, rest) := by
  obtain ⟨hpos, hlt, hvalue⟩ := h
  have htype := f.2.wireType_lt
  have hkey : f.1 * 8 + f.2.wireType < 2 ^ 64 := by omega
  have hdiv : (f.1 * 8 + f.2.wireType) / 8 = f.1 := by omega
  have hmod : (f.1 * 8 + f.2.wireType) % 8 = f.2.wireType := by omega
  rw [encodeField, append_assoc, parseField, decodeVarint_encodeVarint hkey, Option.bind_some]
  rw [hdiv, hmod, if_pos ⟨by omega, hpos⟩, WireValue.decode_encode hvalue, Option.map_some]

theorem encodeField_ne_nil : encodeField f ≠ [] :=
  append_ne_nil_of_left_ne_nil encodeVarint_ne_nil _

theorem parseFieldsFuel_encodeFields (h : ∀ f ∈ fs, ValidField f)
    (hfuel : fs.length ≤ fuel) : parseFieldsFuel fuel (encodeFields fs) = some fs := by
  induction fs generalizing fuel with
  | nil => cases fuel <;> rfl
  | cons f fs ih =>
    cases fuel with
    | zero => exact absurd hfuel (Nat.not_succ_le_zero _)
    | succ fuel =>
    have hsplit : encodeFields (f :: fs) = encodeField f ++ encodeFields fs := flatMap_cons
    obtain ⟨b, bs, hbytes⟩ := exists_cons_of_ne_nil
      (append_ne_nil_of_left_ne_nil (encodeField_ne_nil (f := f)) (encodeFields fs))
    rw [hsplit, hbytes, parseFieldsFuel, ← hbytes, parseField_encodeField (h f (.head _)),
      Option.bind_some, ih (fun x hx => h x (.tail _ hx)) (Nat.le_of_succ_le_succ hfuel),
      Option.map_some]

theorem length_le_length_encodeFields (fs : List Field) : fs.length ≤ (encodeFields fs).length := by
  induction fs with
  | nil => exact le_refl _
  | cons f fs ih =>
    have hsplit : encodeFields (f :: fs) = encodeField f ++ encodeFields fs := flatMap_cons
    have hpos : 0 < (encodeField f).length := length_pos_iff.2 encodeField_ne_nil
    rw [hsplit, length_append, length_cons]
    omega

theorem parseFields_encodeFields (h : ∀ f ∈ fs, ValidField f) :
    parseFields (encodeFields fs) = some fs :=
  parseFieldsFuel_encodeFields h (length_le_length_encodeFields fs)

end

/-! ## Messages -/

/-- A message is decoded by merging its fields one after the other; a field that does not fit fails.
-/
def decodeWith {μ : Type*} (merge : μ → Field → Option μ) (default : μ) (bs : List UInt8) : Option μ :=
  (parseFields bs).bind fun fs => fs.foldlM merge default

/-- A number other than 0, as proto3 writes it. -/
def varintField (number n : Nat) : List Field := if n = 0 then [] else [(number, .varint n)]

def bytesField (number : Nat) (bs : List UInt8) : List Field :=
  if bs = [] then [] else [(number, .bytes bs)]

def packedField (number : Nat) (ns : List Nat) : List Field :=
  bytesField number (ns.flatMap encodeVarint)

/-- The numbers of a packed field. The fuel bounds their number. -/
def parsePacked : Nat → List UInt8 → Option (List Nat)
  | _, [] => some []
  | 0, _ :: _ => none
  | fuel + 1, b :: bs =>
    (decodeVarint (b :: bs)).bind fun x => (parsePacked fuel x.2).map (x.1 :: ·)

/-- A field as proto3 messages have them: a number, or bytes. -/
def Proto3Field (f : Field) : Prop :=
  (0 < f.1 ∧ f.1 < 2 ^ 29) ∧
    match f.2 with
    | .varint n => n < 2 ^ 64
    | .bytes _ => True
    | .fixed64 _ | .fixed32 _ => False

section

theorem mem_varintField (h : f ∈ varintField number n) : f = (number, .varint n) := by
  rw [varintField] at h
  split at h
  · cases h
  · exact mem_singleton.1 h

theorem mem_bytesField (h : f ∈ bytesField number bs) : f = (number, .bytes bs) := by
  rw [bytesField] at h
  split at h
  · cases h
  · exact mem_singleton.1 h

theorem proto3Field_varintField (hnumber : 0 < number ∧ number < 2 ^ 29) (hn : n < 2 ^ 64) :
    ∀ f ∈ varintField number n, Proto3Field f := by
  intro f hf
  rw [mem_varintField hf]
  exact ⟨hnumber, hn⟩

theorem proto3Field_bytesField (hnumber : 0 < number ∧ number < 2 ^ 29) :
    ∀ f ∈ bytesField number bs, Proto3Field f := by
  intro f hf
  rw [mem_bytesField hf]
  exact ⟨hnumber, trivial⟩

/-- The fields of a message that is not longer than a length can say can be written. -/
theorem validField_of_mem (hf : f ∈ fs) (h : Proto3Field f) (hlen : (encodeFields fs).length < 2 ^ 64) :
    ValidField f := by
  obtain ⟨number, value⟩ := f
  refine ⟨h.1.1, h.1.2, ?_⟩
  cases value with
  | varint n => exact h.2
  | bytes bs =>
    have hfield : encodeField (number, .bytes bs) <:+: encodeFields fs :=
      infix_of_mem_flatten (mem_map_of_mem hf)
    have hle := hfield.length_le
    rw [encodeField, WireValue.encode, length_append, length_append] at hle
    show bs.length < 2 ^ 64
    omega
  | fixed64 _ | fixed32 _ => exact h.2.elim

/-- A message that was written is decoded by merging the fields it was written with. -/
theorem decodeWith_message {μ : Type*} {merge : μ → Field → Option μ} {default : μ}
    (h : ∀ f ∈ fs, Proto3Field f) (hlen : (encodeFields fs).length < 2 ^ 64) :
    decodeWith merge default (encodeFields fs) = fs.foldlM merge default := by
  have hvalid : ∀ f ∈ fs, ValidField f := fun f hf => validField_of_mem hf (h f hf) hlen
  rw [decodeWith, parseFields_encodeFields hvalid, Option.bind_some]

theorem foldlM_varintField (set : Nat → μ) (h : merge (set 0) (number, .varint n) = some (set n)) :
    (varintField number n).foldlM merge (set 0) = some (set n) := by
  rw [varintField]
  split
  case isTrue hn => rw [hn]; rfl
  case isFalse =>
    rw [foldlM_cons, h]
    rfl

theorem foldlM_bytesField (set : List UInt8 → μ)
    (h : merge (set []) (number, .bytes bs) = some (set bs)) :
    (bytesField number bs).foldlM merge (set []) = some (set bs) := by
  rw [bytesField]
  split
  case isTrue hbs => rw [hbs]; rfl
  case isFalse =>
    rw [foldlM_cons, h]
    rfl

end

end Protobuf
