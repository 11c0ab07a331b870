import Mathlib.Data.List.Basic

/-!
# Base64 with canonical padding

Three bytes are four digits; a rest of one or two bytes is padded. `decode` refuses digits outside
the alphabet, missing padding and unused bits that are not zero.
-/

namespace Base64

open List Option UInt8

def alphabet : List Char :=
  "ABCDEFGHIJKLMNOPQRSTUVWXYZabcdefghijklmnopqrstuvwxyz0123456789+/".toList

/-- The digit for six bits. -/
def digit (n : Nat) : Char :=
  alphabet.getD n '='

/-- The six bits of a digit; padding has none. -/
def value? (c : Char) : Option Nat :=
  alphabet.idxOf? c

/-- The digits of a byte string, with padding. -/
def encode : List UInt8 → List Char
  | [] => []
  | [a] => [digit (a.toNat / 4), digit (a.toNat % 4 * 16), '=', '=']
  | [a, b] => [digit (a.toNat / 4), digit (a.toNat % 4 * 16 + b.toNat / 16), digit (b.toNat % 16 * 4), '=']
  | a :: b :: c :: rest =>
    digit (a.toNat / 4) :: digit (a.toNat % 4 * 16 + b.toNat / 16) ::
      digit (b.toNat % 16 * 4 + c.toNat / 64) :: digit (c.toNat % 64) :: encode rest

/-- The byte of a group with two digits of padding. -/
def decodeOne (w x : Char) : Option (List UInt8) := do
  let w ← value? w
  let x ← value? x
  if x % 16 = 0 then some [ofNat (w * 4 + x / 16)] else none

/-- The bytes of a group with one digit of padding. -/
def decodeTwo (w x y : Char) : Option (List UInt8) := do
  let w ← value? w
  let x ← value? x
  let y ← value? y
  if y % 4 = 0 then some [ofNat (w * 4 + x / 16), ofNat (x % 16 * 16 + y / 4)] else none

/-- The bytes of a group without padding. -/
def decodeThree (w x y z : Char) : Option (List UInt8) := do
  let w ← value? w
  let x ← value? x
  let y ← value? y
  let z ← value? z
  some [ofNat (w * 4 + x / 16), ofNat (x % 16 * 16 + y / 4), ofNat (y % 4 * 64 + z)]

/-- Only the last group may be padded. -/
def decode : List Char → Option (List UInt8)
  | [] => some []
  | [w, x, y, z] =>
    if y = '=' ∧ z = '=' then decodeOne w x
    else if z = '=' then decodeTwo w x y
    else decodeThree w x y z
  | w :: x :: y :: z :: rest => do
    let group ← decodeThree w x y z
    let rest ← decode rest
    some (group ++ rest)
  | _ => none

/-- A digit has the value it stands for. -/
theorem value?_digit (hn : n < 64) : value? (digit n) = some n := by
  have h : ∀ k : Fin 64, value? (digit k) = some k.val := by decide +kernel
  exact h ⟨n, hn⟩

theorem digit_ne_pad (hn : n < 64) : digit n ≠ '=' := by
  have h : ∀ k : Fin 64, digit k ≠ '=' := by decide +kernel
  exact h ⟨n, hn⟩

theorem digit_mem (n : Nat) : digit n ∈ '=' :: alphabet := by
  rw [digit, getD_eq_getElem?_getD]
  cases h : alphabet[n]? with
  | none => exact mem_cons_self
  | some c => exact mem_cons_of_mem _ (mem_of_getElem? h)

/-- Only the alphabet and the padding occur in an encoded text. -/
theorem mem_of_mem_encode (h : c ∈ encode bs) : c ∈ '=' :: alphabet := by
  fun_induction encode bs with
  | case1 => exact absurd h not_mem_nil
  | case2 | case3 =>
    simp only [mem_cons, not_mem_nil, or_false] at h
    rcases h with rfl | rfl | rfl | rfl <;> first | exact digit_mem _ | exact mem_cons_self
  | case4 a b d rest ih =>
    simp only [mem_cons] at h
    rcases h with rfl | rfl | rfl | rfl | h
    · exact digit_mem _
    · exact digit_mem _
    · exact digit_mem _
    · exact digit_mem _
    · exact ih h

/-- A group of three bytes is read back. -/
theorem decodeThree_digits (a b c : UInt8) :
    decodeThree (digit (a.toNat / 4)) (digit (a.toNat % 4 * 16 + b.toNat / 16))
      (digit (b.toNat % 16 * 4 + c.toNat / 64)) (digit (c.toNat % 64)) = some [a, b, c] := by
  have ha := a.toNat_lt
  have hb := b.toNat_lt
  have hc := c.toNat_lt
  have h1 : a.toNat / 4 * 4 + (a.toNat % 4 * 16 + b.toNat / 16) / 16 = a.toNat := by omega
  have h2 : (a.toNat % 4 * 16 + b.toNat / 16) % 16 * 16 + (b.toNat % 16 * 4 + c.toNat / 64) / 4 = b.toNat := by
    omega
  have h3 : (b.toNat % 16 * 4 + c.toNat / 64) % 4 * 64 + c.toNat % 64 = c.toNat := by omega
  rw [decodeThree, value?_digit (by omega), value?_digit (by omega), value?_digit (by omega),
    value?_digit (by omega)]
  simp only [bind_eq_bind, bind_some, h1, h2, h3, UInt8.ofNat_toNat]

/-- A group without padding is read first, whatever follows. -/
theorem decode_cons (rest : List Char) (hy : y ≠ '=') (hz : z ≠ '=') :
    decode (w :: x :: y :: z :: rest) =
      (decodeThree w x y z).bind fun group => (decode rest).map (group ++ ·) := by
  cases rest with
  | nil =>
    simp only [decode, if_neg (fun h : y = '=' ∧ z = '=' => hy h.1), if_neg hz]
    cases decodeThree w x y z <;> simp
  | cons c rest =>
    rw [decode.eq_3 _ _ _ _ _ (cons_ne_nil c rest)]
    cases decodeThree w x y z <;> cases decode (c :: rest) <;> rfl

/-- What is encoded is read back. -/
theorem decode_encode (bs : List UInt8) : decode (encode bs) = some bs := by
  fun_induction encode bs with
  | case1 => rfl
  | case2 a =>
    have ha := a.toNat_lt
    have h1 : a.toNat / 4 * 4 + a.toNat % 4 * 16 / 16 = a.toNat := by omega
    have hpad : a.toNat % 4 * 16 % 16 = 0 := by omega
    rw [decode, if_pos ⟨rfl, rfl⟩, decodeOne, value?_digit (by omega), value?_digit (by omega)]
    simp only [bind_eq_bind, bind_some, hpad, if_true, h1, UInt8.ofNat_toNat]
  | case3 a b =>
    have ha := a.toNat_lt
    have hb := b.toNat_lt
    have h1 : a.toNat / 4 * 4 + (a.toNat % 4 * 16 + b.toNat / 16) / 16 = a.toNat := by omega
    have h2 : (a.toNat % 4 * 16 + b.toNat / 16) % 16 * 16 + b.toNat % 16 * 4 / 4 = b.toNat := by omega
    have hpad : b.toNat % 16 * 4 % 4 = 0 := by omega
    rw [decode, if_neg (fun h => digit_ne_pad (by omega) h.1), decodeTwo,
      value?_digit (by omega), value?_digit (by omega), value?_digit (by omega)]
    simp only [bind_eq_bind, bind_some, hpad, if_true, h1, h2, UInt8.ofNat_toNat]
  | case4 a b c rest ih =>
    have hc := c.toNat_lt
    rw [decode_cons _ (digit_ne_pad (by omega)) (digit_ne_pad (by omega)), decodeThree_digits, ih]
    rfl

end Base64
