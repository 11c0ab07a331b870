import Mathlib.Data.List.Basic
import Mathlib.Order.Lattice

/-!
# A log that is cut at both ends

A log is a sequence of entries with consecutive indexes behind a base. New entries are spliced in at
an index and replace everything from there on; compaction moves the base up and drops what is below
it. The lemmas say what `get?` and `lastIndex` are after each operation.
-/

/-- The entries with the indexes `base + 1`, `base + 2` and so on. -/
structure IndexedLog (ε : Type*) where
  base : Nat
  entries : List ε

namespace IndexedLog

open List

variable {ε : Type*} {l : IndexedLog ε} {es : List ε} {i k : Nat}

section
variable (l : IndexedLog ε) (i : Nat)

def firstIndex : Nat := l.base + 1

def lastIndex : Nat := l.base + l.entries.length

def get? : Option ε :=
  if l.base < i then l.entries[i - (l.base + 1)]? else none

/-- The entries with indexes from `low` up to but not including `high`. -/
def slice (low high : Nat) : List ε :=
  (l.entries.drop (low - (l.base + 1))).take (high - low)

/-- New entries from index `i` on, in place of everything from there on. -/
def splice (es : List ε) : IndexedLog ε :=
  { l with entries := l.entries.take (i - (l.base + 1)) ++ es }

def compact (k : Nat) : IndexedLog ε where
  base := max l.base k
  entries := l.entries.drop (k - l.base)

end

theorem get?_eq_some_iff :
    l.get? i = some e ↔ l.base < i ∧ l.entries[i - (l.base + 1)]? = some e := by
  rw [get?]
  split
  case isTrue h => exact ⟨fun he => ⟨h, he⟩, fun he => he.2⟩
  case isFalse h => exact ⟨fun he => (by cases he), fun he => absurd he.1 h⟩

@[simp]
theorem get?_mk_nil (base i : Nat) : (⟨base, []⟩ : IndexedLog ε).get? i = none := by
  rw [get?, getElem?_nil, ite_self]

theorem exists_get?_eq_some (hlow : l.base < i) (hhigh : i ≤ l.lastIndex) : ∃ e, l.get? i = some e := by
  rw [lastIndex] at hhigh
  have hlt : i - (l.base + 1) < l.entries.length := by omega
  exact ⟨_, get?_eq_some_iff.2 ⟨hlow, getElem?_eq_getElem hlt⟩⟩

theorem le_lastIndex_of_get? (h : l.get? i = some e) : i ≤ l.lastIndex := by
  obtain ⟨hbase, he⟩ := get?_eq_some_iff.1 h
  obtain ⟨hlt, -⟩ := List.getElem?_eq_some_iff.1 he
  rw [lastIndex]
  omega

/-! ## Slices -/

theorem getElem?_slice (hlow : l.base < low) :
    (l.slice low high)[k]? = if k < high - low then l.get? (low + k) else none := by
  rw [slice, getElem?_take, getElem?_drop, get?, if_pos (show l.base < low + k by omega)]
  split
  case isTrue =>
    congr 1
    omega
  case isFalse => rfl

theorem mem_slice_iff (hlow : l.base < low) :
    e ∈ l.slice low high ↔ ∃ i, low ≤ i ∧ i < high ∧ l.get? i = some e := by
  rw [mem_iff_getElem?]
  constructor
  · rintro ⟨k, hk⟩
    rw [getElem?_slice hlow] at hk
    obtain ⟨hlt, hk⟩ := Option.ite_none_right_eq_some.1 hk
    exact ⟨low + k, by omega, by omega, hk⟩
  · rintro ⟨i, hi, hlt, he⟩
    refine ⟨i - low, ?_⟩
    rw [getElem?_slice hlow, if_pos (by omega), show low + (i - low) = i by omega]
    exact he

theorem slice_succ (h : l.get? i = some e) : l.slice i (i + 1) = [e] := by
  obtain ⟨-, he⟩ := get?_eq_some_iff.1 h
  obtain ⟨hlt, rfl⟩ := List.getElem?_eq_some_iff.1 he
  rw [slice, Nat.add_sub_cancel_left, drop_eq_getElem_cons hlt]
  rfl

/-- What holds of the entries at any two indexes, the lower first, holds along a slice. -/
theorem pairwise_slice (hlow : l.base < low)
    (h : ∀ i j a b, i < j → l.get? i = some a → l.get? j = some b → R a b) :
    (l.slice low high).Pairwise R := by
  have hget : ∀ k (hk : k < (l.slice low high).length),
      l.get? (low + k) = some (l.slice low high)[k] := by
    intro k hk
    have hsome := getElem?_eq_getElem hk
    rw [getElem?_slice hlow] at hsome
    split at hsome
    case isTrue => exact hsome
    case isFalse => cases hsome
  rw [pairwise_iff_getElem]
  intro i j hi hj hij
  exact h (low + i) (low + j) _ _ (by omega) (hget i hi) (hget j hj)

/-! ## After a splice -/

theorem get?_splice_of_lt (hhigh : i ≤ l.lastIndex + 1) (hj : j < i) :
    (l.splice i es).get? j = l.get? j := by
  rw [get?, get?]
  show (if l.base < j then (l.entries.take (i - (l.base + 1)) ++ es)[j - (l.base + 1)]? else none) = _
  split
  case isFalse => rfl
  case isTrue hbase =>
  rw [lastIndex] at hhigh
  rw [getElem?_append_left (by rw [length_take]; omega), getElem?_take_of_lt (by omega)]

section
variable (hlow : l.base < i) (hhigh : i ≤ l.lastIndex + 1)
include hlow hhigh

theorem length_entries_splice : (l.splice i es).entries.length = i - (l.base + 1) + es.length := by
  rw [lastIndex] at hhigh
  rw [splice, length_append, length_take]
  omega

theorem lastIndex_splice : (l.splice i es).lastIndex + 1 = i + es.length := by
  rw [lastIndex, length_entries_splice hlow hhigh]
  show l.base + _ + 1 = _
  omega

theorem get?_splice_of_le (hj : i ≤ j) : (l.splice i es).get? j = es[j - i]? := by
  rw [lastIndex] at hhigh
  have hlen : (l.entries.take (i - (l.base + 1))).length = i - (l.base + 1) := by
    rw [length_take]
    omega
  show (if l.base < j then (l.entries.take (i - (l.base + 1)) ++ es)[j - (l.base + 1)]? else none) = _
  rw [if_pos (by omega), getElem?_append_right (by omega)]
  congr 1
  omega

/-- An entry after a splice is one below it or one of the new ones. -/
theorem get?_splice_eq_some (h : (l.splice i es).get? j = some e) :
    (j < i ∧ l.get? j = some e) ∨ (i ≤ j ∧ es[j - i]? = some e) := by
  by_cases hj : j < i
  · rw [get?_splice_of_lt hhigh hj] at h
    exact .inl ⟨hj, h⟩
  · rw [get?_splice_of_le hlow hhigh (not_lt.1 hj)] at h
    exact .inr ⟨not_lt.1 hj, h⟩

end

/-! ## After a compaction -/

theorem get?_compact : (l.compact k).get? i = if k < i then l.get? i else none := by
  rw [get?, get?]
  show (if max l.base k < i then (l.entries.drop (k - l.base))[i - (max l.base k + 1)]? else none) = _
  rw [getElem?_drop]
  by_cases hk : k < i
  · by_cases hb : l.base < i
    · rw [if_pos hk, if_pos hb, if_pos (by omega)]
      congr 1
      omega
    · rw [if_pos hk, if_neg hb, if_neg (by omega)]
  · rw [if_neg hk, if_neg (by omega)]

theorem get?_of_compact (h : (l.compact k).get? i = some e) : l.get? i = some e := by
  rw [get?_compact] at h
  split at h
  case isTrue => exact h
  case isFalse => cases h

theorem lastIndex_compact : (l.compact k).lastIndex = max l.lastIndex k := by
  rw [lastIndex, lastIndex]
  show max l.base k + (l.entries.drop (k - l.base)).length = _
  rw [length_drop]
  omega

end IndexedLog
