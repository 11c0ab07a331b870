import Mathlib.Algebra.Group.Nat.Defs
import Mathlib.Algebra.Order.Group.Int
import Mathlib.Data.List.Basic

/-!
# Fixed-width integers and fields in byte strings

Little-endian and big-endian integers of a fixed width, and the slice `[p, p + n)` of a byte string.
A record whose layout is a list of fields is the `flatten` of that list; `slice_flatten` reads a
field back at the position the fields before it add up to, whatever follows the record.
-/

namespace Bytes

open List

/-! ## Unsigned integers -/

/-- The `w` little-endian bytes of `n`, which is cut to `w` bytes. -/
def le : Nat → Nat → List UInt8
  | 0, _ => []
  | w + 1, n => UInt8.ofNat n :: le w (n / 256)

/-- The number a byte string denotes in little-endian order. -/
def ofLe : List UInt8 → Nat
  | [] => 0
  | b :: bs => b.toNat + 256 * ofLe bs

@[simp] theorem length_le (w n : Nat) : (le w n).length = w := by
  induction w generalizing n with
  | zero => rfl
  | succ w ih => simp [le, ih]

theorem ofLe_le (w n : Nat) : ofLe (le w n) = n % 256 ^ w := by
  induction w generalizing n with
  | zero => simp [le, ofLe, Nat.mod_one]
  | succ w ih =>
    have hsplit : n % 256 ^ (w + 1) = n % 256 + 256 * (n / 256 % 256 ^ w) := by
      rw [Nat.pow_succ', Nat.mod_mul]
    rw [le, ofLe, ih, UInt8.toNat_ofNat', hsplit]

theorem ofLe_le_of_lt (h : n < 256 ^ w) : ofLe (le w n) = n := by
  rw [ofLe_le, Nat.mod_eq_of_lt h]

/-- The `w` little-endian bytes of a two's complement integer. -/
def leInt (w : Nat) (i : Int) : List UInt8 :=
  le w (i % (256 ^ w : Nat)).toNat

/-- The two's complement integer a byte string denotes in little-endian order. -/
def ofLeInt (bs : List UInt8) : Int :=
  Int.bmod (ofLe bs) (256 ^ bs.length)

def i64Min : Int := -2 ^ 63

/-- The integers a two's complement field of `w` bytes holds. -/
def Fits (w : Nat) (i : Int) : Prop :=
  -(256 ^ w : Nat) ≤ 2 * i ∧ 2 * i < (256 ^ w : Nat)
deriving Decidable

@[simp] theorem length_leInt (w : Nat) (i : Int) : (leInt w i).length = w :=
  length_le w _

/-- What a field of `w` bytes keeps of the result of an addition. -/
def wrap (w : Nat) (i : Int) : Int :=
  Int.bmod i (256 ^ w)

theorem wrap_eq (h : Fits w i) : wrap w i = i :=
  Int.bmod_eq_of_le_mul_two (by simpa [mul_comm] using h.1) (by simpa [mul_comm] using h.2)

theorem fits_wrap (w : Nat) (i : Int) : Fits w (wrap w i) := by
  have hpos : 0 < 256 ^ w := Nat.pow_pos (by decide)
  have hle : -((256 ^ w : Nat) / 2 : Int) ≤ wrap w i := Int.le_bmod hpos
  have hlt : wrap w i < ((256 ^ w : Nat) + 1) / 2 := Int.bmod_lt hpos
  constructor <;> omega

def asI64 (n : Nat) : Int := wrap 8 n

def asUsize (i : Int) : Nat := (i % (2 ^ 64 : Nat)).toNat

theorem fits_of_lt {n : Nat} (h : n < 2 ^ 63) : Fits 8 n := by
  have hpow : 256 ^ 8 = 2 * 2 ^ 63 := by decide
  rw [Fits]
  omega

theorem ofLeInt_leInt (h : Fits w i) : ofLeInt (leInt w i) = i := by
  have hpos : 0 < 256 ^ w := Nat.pow_pos (by decide)
  have hmod : 0 ≤ i % (256 ^ w : Nat) := Int.emod_nonneg _ (by omega)
  rw [ofLeInt, length_leInt, leInt, ofLe_le_of_lt (by omega), Int.toNat_of_nonneg hmod,
    Int.emod_bmod]
  exact wrap_eq h

/-! ## Network byte order -/

/-- The `w` big-endian bytes of a two's complement integer. -/
def beInt (w : Nat) (i : Int) : List UInt8 :=
  (leInt w i).reverse

/-- The two's complement integer a byte string denotes in big-endian order. -/
def ofBeInt (bs : List UInt8) : Int :=
  ofLeInt bs.reverse

@[simp] theorem length_beInt (w : Nat) (i : Int) : (beInt w i).length = w := by
  rw [beInt, length_reverse, length_leInt]

theorem ofBeInt_beInt (h : Fits w i) : ofBeInt (beInt w i) = i := by
  rw [ofBeInt, beInt, reverse_reverse, ofLeInt_leInt h]

theorem ofBeInt_lt_of_length (h : bs.length = 4) : ofBeInt bs < 2 ^ 31 := by
  have hlt : ofBeInt bs < ((256 ^ bs.reverse.length : Nat) + 1) / 2 :=
    Int.bmod_lt (Nat.pow_pos (by decide))
  rw [length_reverse, h] at hlt
  exact hlt

theorem le_ofBeInt_of_length (h : bs.length = 4) : -2 ^ 31 ≤ ofBeInt bs := by
  have hle : -((256 ^ bs.reverse.length : Nat) / 2 : Int) ≤ ofBeInt bs :=
    Int.le_bmod (Nat.pow_pos (by decide))
  rw [length_reverse, h] at hle
  exact hle

/-- The `n` bytes from position `p` on, fewer where the string ends before. -/
def slice (d : List UInt8) (p n : Nat) : List UInt8 :=
  (d.drop p).take n

theorem length_slice (h : p + n ≤ d.length) : (slice d p n).length = n := by
  rw [slice, length_take, length_drop]
  omega

theorem slice_append (hp : p = pre.length)
    (hn : n = field.length) : slice (pre ++ (field ++ post)) p n = field := by
  subst hp hn
  rw [slice, drop_left, take_left]

/-- Field `i` of a record laid out as the list `fields`, read at the position the fields before it
add up to. -/
theorem slice_flatten {fields : List (List UInt8)} (i : Nat)
    (hfield : fields[i]? = some field) (hp : p = (fields.take i).flatten.length)
    (hn : n = field.length) : slice (fields.flatten ++ rest) p n = field := by
  obtain ⟨hi, hget⟩ := List.getElem?_eq_some_iff.1 hfield
  have hsplit : fields = fields.take i ++ field :: fields.drop (i + 1) := by
    rw [← hget, getElem_cons_drop, take_append_drop]
  rw [hsplit, flatten_append, flatten_cons, append_assoc, append_assoc]
  exact slice_append hp hn

theorem slice_within (h : p + n ≤ f.length) :
    slice (pre ++ (f ++ post)) (pre.length + p) n = slice f p n := by
  rw [slice, ← drop_drop, drop_left, drop_append_of_le_length (by omega),
    take_append_of_le_length (by rw [length_drop]; omega), slice]

theorem slice_eq_of_take_eq (h : d.take n = e.take n)
    (hm : p + m ≤ n) : slice d p m = slice e p m := by
  have htake : ∀ b : List UInt8, slice (b.take n) p m = slice b p m := by
    intro b
    rw [slice, slice, drop_take, take_take, min_eq_left (by omega)]
  rw [← htake d, h, htake e]

end Bytes
