import Mathlib.Data.List.Basic

/-!
# Texts and their UTF-8 bytes

`fromUtf8Lossy` reads bytes as a text, with a replacement character for each invalid sequence. Every
other character stands for its own bytes (`eq_append_of_fromUtf8Lossy`), so a byte string is a text
only if nothing was replaced (`decode?`).
-/

namespace Utf8

open List

def encode (cs : List Char) : List UInt8 :=
  cs.flatMap String.utf8EncodeChar

/-- The character a byte string starts with, if it starts with one. -/
def decodeChar? (bs : List UInt8) : Option Char :=
  bs.toByteArray.utf8DecodeChar? 0

def replacement : Char := '�'

/-- The second bytes that the first byte of a sequence of three or four bytes admits. -/
def secondByteFits (first second : UInt8) : Bool :=
  (first = 0xE0 ∧ 0xA0 ≤ second ∧ second ≤ 0xBF) ∨
    (0xE1 ≤ first ∧ first ≤ 0xEC ∧ 0x80 ≤ second ∧ second ≤ 0xBF) ∨
    (first = 0xED ∧ 0x80 ≤ second ∧ second ≤ 0x9F) ∨
    (0xEE ≤ first ∧ first ≤ 0xEF ∧ 0x80 ≤ second ∧ second ≤ 0xBF) ∨
    (first = 0xF0 ∧ 0x90 ≤ second ∧ second ≤ 0xBF) ∨
    (0xF1 ≤ first ∧ first ≤ 0xF3 ∧ 0x80 ≤ second ∧ second ≤ 0xBF) ∨
    (first = 0xF4 ∧ 0x80 ≤ second ∧ second ≤ 0x8F)

/-- How many bytes belong to the invalid sequence that `first` starts, besides `first`. -/
def invalidTail (first : UInt8) (rest : List UInt8) : Nat :=
  if secondByteFits first (rest.getD 0 0) = false then 0
  else if first < 0xF0 then 1
  else if (rest.getD 1 0) &&& 0xC0 = 0x80 then 2
  else 1

/-- `fromUtf8Lossy` for at most `n` characters. -/
def lossyFrom : Nat → List UInt8 → List Char
  | 0, _ => []
  | _ + 1, [] => []
  | n + 1, b :: bs =>
    match decodeChar? (b :: bs) with
    | some c => c :: lossyFrom n ((b :: bs).drop c.utf8Size)
    | none => replacement :: lossyFrom n (bs.drop (invalidTail b bs))

def fromUtf8Lossy (bs : List UInt8) : List Char :=
  lossyFrom bs.length bs

def decode? (bs : List UInt8) : Option (List Char) :=
  if encode (fromUtf8Lossy bs) = bs then some (fromUtf8Lossy bs) else none

@[simp] theorem encode_cons (c : Char) (cs : List Char) :
    encode (c :: cs) = String.utf8EncodeChar c ++ encode cs := rfl

theorem decodeChar?_append (c : Char) (bs : List UInt8) :
    decodeChar? (String.utf8EncodeChar c ++ bs) = some c := by
  have h : (String.utf8EncodeChar c).toByteArray.utf8DecodeChar? 0 = some c := by
    simpa [List.utf8Encode] using utf8DecodeChar?_utf8Encode_singleton (c := c)
  rw [decodeChar?, toByteArray_append]
  exact ByteArray.utf8DecodeChar?_append_eq_some h _

theorem eq_append_of_decodeChar? (h : decodeChar? bs = some c) :
    bs = String.utf8EncodeChar c ++ bs.drop c.utf8Size := by
  have henc := String.toByteArray_utf8EncodeChar_of_utf8DecodeChar?_eq_some h
  have htake : String.utf8EncodeChar c = bs.take c.utf8Size := by
    have hdata := congrArg (fun b : ByteArray => b.data.toList) henc
    simpa [data_toByteArray, ByteArray.data_extract] using hdata
  rw [htake, take_append_drop]

theorem lossyFrom_of_length_le (hn : bs.length ≤ n) : lossyFrom n bs = fromUtf8Lossy bs := by
  induction n using Nat.strongRecOn generalizing bs with
  | _ n ih =>
    cases n with
    | zero =>
      rw [length_eq_zero_iff.1 (Nat.le_zero.1 hn)]
      rfl
    | succ n =>
    cases bs with
    | nil => rfl
    | cons b bs =>
    have hstep : ∀ k, 0 < k → ((b :: bs).drop k).length ≤ bs.length := by
      intro k hk
      rw [length_drop, length_cons]
      omega
    rw [length_cons] at hn
    have hsame : ∀ rest : List UInt8, rest.length ≤ bs.length →
        lossyFrom n rest = lossyFrom bs.length rest := by
      intro rest hrest
      rw [ih n (by omega) (by omega)]
      rcases Nat.lt_or_ge bs.length (n + 1) with hlt | hge
      · exact (ih bs.length hlt hrest).symm
      · omega
    rw [fromUtf8Lossy, length_cons, lossyFrom, lossyFrom]
    cases hdec : decodeChar? (b :: bs) with
    | some c => simp only [hsame _ (hstep c.utf8Size c.utf8Size_pos)]
    | none =>
    have htail : (bs.drop (invalidTail b bs)).length ≤ bs.length := by
      rw [length_drop]
      omega
    simp only [hsame _ htail]

theorem fromUtf8Lossy_append (c : Char) (bs : List UInt8) :
    fromUtf8Lossy (String.utf8EncodeChar c ++ bs) = c :: fromUtf8Lossy bs := by
  have hlen : (String.utf8EncodeChar c).length = c.utf8Size := String.length_utf8EncodeChar c
  obtain ⟨b, tail, htail⟩ := exists_cons_of_ne_nil (String.utf8EncodeChar_ne_nil (c := c))
  have hdec := decodeChar?_append c bs
  have hdrop : (String.utf8EncodeChar c ++ bs).drop c.utf8Size = bs := drop_left' hlen
  rw [htail, cons_append] at hdec hdrop ⊢
  rw [fromUtf8Lossy, length_cons, lossyFrom, hdec]
  simp only [hdrop]
  rw [lossyFrom_of_length_le (by rw [length_append]; omega)]

/-- A character of the outcome stands for its own bytes, unless it is the replacement character. -/
theorem eq_append_of_fromUtf8Lossy (h : fromUtf8Lossy bs = c :: cs) :
    ∃ chunk rest, bs = chunk ++ rest ∧ fromUtf8Lossy rest = cs ∧
      (c ≠ replacement → chunk = String.utf8EncodeChar c) := by
  cases bs with
  | nil => cases h
  | cons b bs =>
  rw [fromUtf8Lossy, length_cons, lossyFrom] at h
  split at h
  · rename_i c' hdec
    obtain ⟨rfl, hrest⟩ := List.cons.inj h
    have hpos : 0 < c'.utf8Size := c'.utf8Size_pos
    rw [lossyFrom_of_length_le (by rw [length_drop, length_cons]; omega)] at hrest
    exact ⟨_, _, eq_append_of_decodeChar? hdec, hrest, fun _ => rfl⟩
  · obtain ⟨rfl, hrest⟩ := List.cons.inj h
    rw [lossyFrom_of_length_le (by rw [length_drop]; omega)] at hrest
    refine ⟨b :: bs.take (invalidTail b bs), _, ?_, hrest, fun hc => absurd rfl hc⟩
    rw [cons_append, take_append_drop]

@[simp] theorem fromUtf8Lossy_encode (cs : List Char) : fromUtf8Lossy (encode cs) = cs := by
  induction cs with
  | nil => rfl
  | cons c cs ih => rw [encode_cons, fromUtf8Lossy_append, ih]

theorem encode_injective : Function.Injective encode := by
  intro cs cs' h
  rw [← fromUtf8Lossy_encode cs, h, fromUtf8Lossy_encode]

theorem eq_nil_of_fromUtf8Lossy (h : fromUtf8Lossy bs = []) : bs = [] := by
  cases bs with
  | nil => rfl
  | cons b bs =>
    rw [fromUtf8Lossy, length_cons, lossyFrom] at h
    split at h <;> cases h

theorem eq_encode_of_fromUtf8Lossy (hcs : replacement ∉ cs) (h : fromUtf8Lossy bs = cs) :
    bs = encode cs := by
  induction cs generalizing bs with
  | nil => exact eq_nil_of_fromUtf8Lossy h
  | cons c cs ih =>
    obtain ⟨chunk, rest, rfl, hrest, hchunk⟩ := eq_append_of_fromUtf8Lossy h
    have hc : c ≠ replacement := fun hc => hcs (hc ▸ mem_cons_self)
    rw [hchunk hc, ih (fun hm => hcs (mem_cons_of_mem c hm)) hrest, encode_cons]

/-- Where nothing was replaced at the end of the text, the bytes end with the bytes of that end. -/
theorem exists_append_encode_of_fromUtf8Lossy (hys : replacement ∉ ys) (h : fromUtf8Lossy bs = cs ++ ys) :
    ∃ pre, bs = pre ++ encode ys := by
  induction cs generalizing bs with
  | nil => exact ⟨[], eq_encode_of_fromUtf8Lossy hys h⟩
  | cons c cs ih =>
    obtain ⟨chunk, rest, rfl, hrest, -⟩ := eq_append_of_fromUtf8Lossy h
    obtain ⟨pre, rfl⟩ := ih hrest
    exact ⟨chunk ++ pre, (append_assoc ..).symm⟩

@[simp] theorem decode?_encode (cs : List Char) : decode? (encode cs) = some cs := by
  rw [decode?, fromUtf8Lossy_encode, if_pos rfl]

theorem decode?_eq_some_iff : decode? bs = some cs ↔ bs = encode cs := by
  constructor
  · intro h
    rw [decode?] at h
    split at h
    · rename_i henc
      rw [← Option.some.inj h, henc]
    · cases h
  · rintro rfl
    exact decode?_encode cs

end Utf8
