import ChronikStream.Wal.Truncate
import Mathlib.Data.List.Induction

/-!
# The highest offset of a partition's segment files

`get_max_offset_for_partition` (`manager.rs`) takes the highest last offset of the newest file that
has a record. On files of well-formed records, possibly with a torn one at the end, the bytes give
what the records give; in offset order that is the end of the last record
(`maxOffset_of_ascending`).
-/

namespace ChronikStream

open Bytes List Option

/-- The size and the last offset of the record at the head of `data`. The length field and the
checksum are read and not looked at. -/
def lastOffsetAt (data : List UInt8) : Option (Nat × Int) :=
  if data.length < 14 ∨ ofLe (slice data 0 2) ≠ walMagic ∨ ofLe (slice data 2 1) ≠ walVersionV2 then none
  else
    let topicLen := ofLe (slice data 12 2)
    let payloadAt := 14 + topicLen + 8
    if data.length < payloadAt then none
    else
      let metaAt := payloadAt + ofLe (slice data (14 + topicLen + 4) 4)
      if data.length < metaAt + 20 then none
      else some (metaAt + 20, ofLeInt (slice data (metaAt + 8) 8))

/-- The last offsets of the records of a file, up to the first bytes that are not a record. The fuel
bounds the number of records. -/
def lastOffsetsFrom : Nat → List UInt8 → List Int
  | 0, _ => []
  | fuel + 1, data =>
    match lastOffsetAt data with
    | some (size, lastOffset) => lastOffset :: lastOffsetsFrom fuel (data.drop size)
    | none => []

def lastOffsets (data : List UInt8) : List Int := lastOffsetsFrom data.length data

/-- The highest of the last offsets of the newest file with a record. An offset below 0 counts as
none. -/
def maxOffset (files : List (List Int)) : Option Int :=
  let globalMaxOffset := ((files.reverse.find? (· ≠ [])).getD []).foldl max (-1)
  if 0 ≤ globalMaxOffset then some globalMaxOffset else none

def getMaxOffsetForPartition (files : List (List UInt8)) : Option Int := maxOffset (files.map lastOffsets)

/-! ## Bytes and records -/

section
variable {data : List UInt8} {r : WalRecord}

theorem lastOffsetAt_of_parseRecord (h : parseRecord data = .record l) :
    lastOffsetAt data = some (l.totalLen, l.lastOffset) := by
  obtain ⟨⟨hmagic, hversion, -⟩, htotal, rfl⟩ := parseRecord_eq_record_iff.1 h
  dsimp only [layoutAt] at htotal
  rw [lastOffsetAt, if_neg (by omega)]
  rw [if_neg (by omega), if_neg (by omega)]
  rfl

theorem WalRecord.WellFormed.lastOffsetAt_toBytes (h : r.WellFormed) (rest : List UInt8) :
    lastOffsetAt (r.toBytes ++ rest) = some (r.toBytes.length, r.lastOffset) := by
  rw [lastOffsetAt_of_parseRecord (h.parseRecord_toBytes rest), r.layout_totalLen]
  rfl

theorem size_le_of_lastOffsetAt (h : lastOffsetAt data = some (size, o)) : size ≤ data.length := by
  rw [lastOffsetAt, ite_none_left_eq_some] at h
  have h := h.2
  rw [ite_none_left_eq_some, ite_none_left_eq_some] at h
  cases h.2.2
  exact Nat.le_of_not_lt h.2.1

theorem lastOffsetAt_append (h : lastOffsetAt data = some (size, o))
    (rest : List UInt8) : lastOffsetAt (data ++ rest) = some (size, o) := by
  have hslice : ∀ p n, p + n ≤ data.length → slice (data ++ rest) p n = slice data p n := by
    intro p n hle
    exact (slice_eq_of_take_eq (take_append_of_le_length (le_refl _)).symm hle).symm
  have hlen : (data ++ rest).length = data.length + rest.length := length_append
  rw [lastOffsetAt, ite_none_left_eq_some] at h
  obtain ⟨hhead, h⟩ := h
  rw [ite_none_left_eq_some] at h
  obtain ⟨htopic, h⟩ := h
  rw [ite_none_left_eq_some] at h
  obtain ⟨hpayload, h⟩ := h
  rw [lastOffsetAt, hslice 0 2 (by omega), hslice 2 1 (by omega), hslice 12 2 (by omega), if_neg (by omega)]
  rw [if_neg (by omega), hslice _ 4 (by omega), if_neg (by omega), hslice _ 8 (by omega)]
  exact h

/-- A torn record: some of its bytes, from the first on, and not all of them. -/
def Torn (data : List UInt8) : Prop := ∃ r : WalRecord, r.WellFormed ∧ data <+: r.toBytes ∧ data ≠ r.toBytes

theorem lastOffsetAt_torn (h : Torn torn) : lastOffsetAt torn = none := by
  obtain ⟨r, hr, ⟨rest, hrest⟩, hne⟩ := h
  rw [eq_none_iff_forall_ne_some]
  rintro ⟨size, o⟩ hsome
  -- the whole record would be read where only a part of it is
  have hwhole := hr.lastOffsetAt_toBytes []
  rw [append_nil, ← hrest, lastOffsetAt_append hsome rest] at hwhole
  have hsize := size_le_of_lastOffsetAt hsome
  cases hwhole
  rw [length_append] at hsize
  have hnil : rest = [] := length_eq_zero_iff.1 (by omega)
  rw [hnil, append_nil] at hrest
  exact hne hrest

theorem lastOffsetsFrom_encodeSegment (h : ∀ r ∈ rs, r.WellFormed) (htorn : lastOffsetAt torn = none)
    (hfuel : rs.length ≤ fuel) :
    lastOffsetsFrom fuel (encodeSegment rs ++ torn) = rs.map WalRecord.lastOffset := by
  induction rs generalizing fuel with
  | nil =>
    cases fuel with
    | zero => rfl
    | succ fuel =>
    have hempty : encodeSegment [] ++ torn = torn := rfl
    rw [hempty, lastOffsetsFrom, htorn]
    rfl
  | cons r rs ih =>
    obtain ⟨fuel, rfl⟩ := Nat.exists_eq_add_one.2 (Nat.zero_lt_of_lt hfuel)
    have hcons : encodeSegment (r :: rs) ++ torn = r.toBytes ++ (encodeSegment rs ++ torn) := by
      rw [encodeSegment, flatMap_cons, append_assoc]
      rfl
    rw [hcons, lastOffsetsFrom, (h r mem_cons_self).lastOffsetAt_toBytes]
    dsimp only
    rw [drop_left, ih (fun r' hr' => h r' (mem_cons_of_mem r hr')) (Nat.le_of_succ_le_succ hfuel),
      map_cons]

end

/-- On files of well-formed records, each possibly with a torn one behind them, the highest offset
is that of the records. -/
theorem getMaxOffsetForPartition_encode {segments : List (List WalRecord × List UInt8)}
    (h : ∀ segment ∈ segments, (∀ r ∈ segment.1, r.WellFormed) ∧ (segment.2 = [] ∨ Torn segment.2)) :
    getMaxOffsetForPartition (segments.map fun segment => encodeSegment segment.1 ++ segment.2) =
      maxOffset (segments.map fun segment => segment.1.map WalRecord.lastOffset) := by
  rw [getMaxOffsetForPartition, List.map_map]
  congr 1
  apply map_congr_left
  intro segment hsegment
  obtain ⟨hwf, htail⟩ := h segment hsegment
  have htorn : lastOffsetAt segment.2 = none := by
    rcases htail with hnil | htorn
    · rw [hnil]
      rfl
    · exact lastOffsetAt_torn htorn
  apply lastOffsetsFrom_encodeSegment hwf htorn
  have hlen := length_le_length_encodeSegment segment.1
  rw [length_append]
  omega

def cutOffRecord : WalRecord := .newV2 0 "t" 0 [3] 10 14 5

theorem getMaxOffsetForPartition_encode_torn :
    getMaxOffsetForPartition [encodeSegment [.newV2 0 "t" 0 [] 0 4 5] ++ [],
      encodeSegment [.newV2 0 "t" 0 [1] 7 9 3, .newV2 0 "t" 0 [2] 5 6 2] ++ cutOffRecord.toBytes.take 30] =
      some 9 :=
  have htorn : Torn (cutOffRecord.toBytes.take 30) :=
    ⟨cutOffRecord, by decide, take_prefix _ _, by decide⟩
  @getMaxOffsetForPartition_encode [([.newV2 0 "t" 0 [] 0 4 5], []),
    ([.newV2 0 "t" 0 [1] 7 9 3, .newV2 0 "t" 0 [2] 5 6 2], cutOffRecord.toBytes.take 30)]
    (forall_mem_cons.2 ⟨⟨by decide, .inl rfl⟩, forall_mem_singleton.2 ⟨by decide, .inr htorn⟩⟩)

/-! ## Records in the order of their offsets -/

theorem foldl_max_of_le {a m : Int} {offsets : List Int} (hmem : m ∈ offsets) (hle : ∀ o ∈ offsets, o ≤ m) :
    offsets.foldl max a = max a m := by
  have hbound : ∀ (l : List Int) (start : Int), (∀ o ∈ l, o ≤ m) → start ≤ l.foldl max start ∧
      (∀ o ∈ l, o ≤ l.foldl max start) ∧ l.foldl max start ≤ max start m := by
    intro l
    induction l with
    | nil => exact fun start _ => ⟨le_refl _, forall_mem_nil _, by
        rw [foldl_nil]
        omega⟩
    | cons o l ih =>
      intro start hl
      have ho := hl o mem_cons_self
      obtain ⟨hstart, hall, hmax⟩ := ih (max start o) fun o' ho' => hl o' (mem_cons_of_mem o ho')
      rw [foldl_cons]
      refine ⟨by omega, ?_, by omega⟩
      intro o' ho'
      rcases mem_cons.1 ho' with rfl | ho'
      · omega
      · exact hall o' ho'
  obtain ⟨hstart, hall, hmax⟩ := hbound offsets a hle
  have hm := hall m hmem
  omega

theorem le_of_getLast?_eq_some {o m : Int} {offsets : List Int} (hasc : offsets.Pairwise (· ≤ ·))
    (hlast : offsets.getLast? = some m) (ho : o ∈ offsets) : o ≤ m := by
  rcases hasc.eq_or_of_getLast? hlast ho with rfl | hle
  · exact le_refl _
  · exact hle

/-- Where no record ends below an earlier one, the newest file with a record has the highest offset.
-/
theorem maxOffset_of_ascending {files : List (List Int)} {m : Int} (hasc : files.flatten.Pairwise (· ≤ ·))
    (hlast : files.flatten.getLast? = some m) : maxOffset files = if 0 ≤ m then some m else none := by
  have hnewest : ((files.reverse.find? (· ≠ [])).getD []).foldl max (-1) = max (-1) m := by
    induction files using List.reverseRecOn with
    | nil => cases hlast
    | append_singleton files file ih =>
      rw [reverse_append, reverse_singleton, singleton_append]
      rw [flatten_append, flatten_singleton] at hasc hlast
      by_cases hnil : file = []
      · rw [hnil, append_nil] at hasc hlast
        rw [find?_cons_of_neg (by simp [hnil])]
        exact ih hasc hlast
      rw [find?_cons_of_pos (by simp [hnil])]
      have hmem : m ∈ file := by
        rw [getLast?_append_of_ne_nil _ hnil] at hlast
        exact mem_of_getLast? hlast
      apply foldl_max_of_le hmem
      intro o ho
      exact le_of_getLast?_eq_some hasc hlast (mem_append_right _ ho)
  rw [maxOffset, hnewest]
  by_cases hm : 0 ≤ m
  · have hmax : max (-1) m = m := by omega
    rw [hmax]
  · rw [if_neg (by omega), if_neg hm]

theorem maxOffset_eq_none (h : files.flatten = []) : maxOffset files = none := by
  have hnone : files.reverse.find? (· ≠ []) = none := by
    rw [find?_eq_none]
    intro file hfile
    have hnil := flatten_eq_nil_iff.1 h file (mem_reverse.1 hfile)
    simp [hnil]
  rw [maxOffset, hnone]
  rfl

end ChronikStream
