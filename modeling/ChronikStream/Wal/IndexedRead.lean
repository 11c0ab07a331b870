import ChronikStream.Wal.SegmentIndex
import Mathlib.Data.List.Induction

/-!
# Indexed reads against full scans

An indexed read passes over the records before the byte it seeks to, and over segments whose last
record ends below the offset. That is right, at every offset and with every limit, exactly when all
segments are `Sorted` (`readFrom_eq_scan_iff`); ascending records are (`Sorted.of_ascending`).
-/

namespace ChronikStream

open Bytes OffsetRange List Option SegmentMarks

/-! ## Segment files made of records -/

/-- Well-formed records in append order, and a torn tail at whose start no record can be read. -/
structure SegmentImage where
  records : List WalRecord
  torn : List UInt8
  wellFormed : ∀ r ∈ records, r.WellFormed
  ranges : ∀ r ∈ records, r.baseOffset ≤ r.lastOffset + 1
  noRecord : ∀ l, parseRecord torn ≠ .record l

def SegmentImage.bytes (s : SegmentImage) : List UInt8 := encodeSegment s.records ++ s.torn

/-- The marks of a file that holds these records. -/
def SegmentMarks.ofRecords (rs : List WalRecord) : SegmentMarks :=
  rs.foldl (fun m r => m.add r.layout) .new

/-- What the index relies on. -/
structure Sorted (rs : List WalRecord) : Prop where
  last_le : ∀ r ∈ rs, ∀ z ∈ rs.getLast?, r.lastOffset ≤ z.lastOffset
  mark_above : ∀ front r back, rs = front ++ r :: back →
    (r.baseOffset, (encodeSegment front).length) ∈ (ofRecords rs).marks →
    ∀ q ∈ front, q.lastOffset < r.baseOffset

/-! ## Scans are walks over the records -/

def keep (offset : Int) (maxRecords : Nat) (acc : Nat × List WalRecord) (r : WalRecord) :
    Nat × List WalRecord :=
  if offset ≤ r.lastOffset ∧ acc.1 < maxRecords then (acc.1 + r.layout.messages, acc.2 ++ [r]) else acc

section
variable {maxRecords : Nat} {rs front : List WalRecord}

theorem encodeSegment_append :
    encodeSegment (front ++ back) = encodeSegment front ++ encodeSegment back :=
  flatMap_append

theorem foldl_keep_of_le (h : maxRecords ≤ acc.1) : rs.foldl (keep offset maxRecords) acc = acc := by
  induction rs with
  | nil => rfl
  | cons r rs ih =>
    rw [foldl_cons, keep, if_neg (by omega)]
    exact ih

theorem foldl_keep_of_lt (h : ∀ r ∈ rs, r.lastOffset < offset) :
    rs.foldl (keep offset maxRecords) acc = acc := by
  induction rs with
  | nil => rfl
  | cons r rs ih =>
    obtain ⟨hr, hrs⟩ := forall_mem_cons.1 h
    rw [foldl_cons, keep, if_neg (by omega)]
    exact ih hrs

theorem encodeSegment_cons_append (r : WalRecord) (rs : List WalRecord) (torn : List UInt8) :
    encodeSegment (r :: rs) ++ torn = r.toBytes ++ (encodeSegment rs ++ torn) := by
  rw [encodeSegment, flatMap_cons, append_assoc]
  rfl

theorem readSegmentFrom_of_not_record (h : ∀ l, parseRecord data ≠ .record l) :
    readSegmentFrom offset maxRecords fuel data acc = acc := by
  cases fuel with
  | zero => rfl
  | succ fuel =>
  rw [readSegmentFrom]
  split
  case h_1 l hparse => exact absurd hparse (h l)
  case h_2 | h_3 => rfl

theorem SegmentMarks.extend_of_not_record
    (h : ∀ l, parseRecord data ≠ .record l) : extend fuel m data = m := by
  cases fuel with
  | zero => rfl
  | succ fuel =>
  rw [extend]
  split
  case h_1 l hparse => exact absurd hparse (h l)
  case h_2 | h_3 => rfl

section
variable (h : ∀ r ∈ rs, r.WellFormed) (htorn : ∀ l, parseRecord torn ≠ .record l)
  (hfuel : rs.length ≤ fuel)
include h htorn hfuel

theorem readSegmentFrom_encodeSegment :
    readSegmentFrom offset maxRecords fuel (encodeSegment rs ++ torn) acc =
      rs.foldl (keep offset maxRecords) acc := by
  induction rs generalizing fuel acc with
  | nil => exact readSegmentFrom_of_not_record htorn
  | cons r rs ih =>
    obtain ⟨hr, hrs⟩ := forall_mem_cons.1 h
    cases fuel with
    | zero => cases hfuel
    | succ fuel =>
    rw [readSegmentFrom, encodeSegment_cons_append, hr.parseRecord_toBytes]
    dsimp only
    rw [WalRecord.toRecord_layout, WalRecord.layout_totalLen, drop_left]
    change (if maxRecords ≤ (keep offset maxRecords acc r).1 then keep offset maxRecords acc r
      else readSegmentFrom offset maxRecords fuel _ (keep offset maxRecords acc r)) = _
    split
    case isTrue hfull => exact (foldl_keep_of_le hfull).symm
    case isFalse => exact ih hrs (Nat.le_of_succ_le_succ hfuel)

theorem SegmentMarks.extend_encodeSegment :
    extend fuel m (encodeSegment rs ++ torn) = rs.foldl (fun m r => m.add r.layout) m := by
  induction rs generalizing fuel m with
  | nil => exact extend_of_not_record htorn
  | cons r rs ih =>
    obtain ⟨hr, hrs⟩ := forall_mem_cons.1 h
    cases fuel with
    | zero => cases hfuel
    | succ fuel =>
    rw [extend, encodeSegment_cons_append, hr.parseRecord_toBytes]
    dsimp only
    rw [WalRecord.layout_totalLen, drop_left]
    exact ih hrs (Nat.le_of_succ_le_succ hfuel)

end

end

/-! ## The marks of a file -/

namespace SegmentMarks

variable {rs : List WalRecord} {r : WalRecord} {search : Search}

theorem ofRecords_concat : ofRecords (rs ++ [r]) = (ofRecords rs).add r.layout := by
  rw [ofRecords, foldl_append]
  rfl

theorem indexedLen_ofRecords : (ofRecords rs).indexedLen = (encodeSegment rs).length := by
  induction rs using List.reverseRecOn with
  | nil => rfl
  | append_singleton rs r ih =>
    rw [ofRecords_concat, add, ih, r.layout_totalLen]
    simp [encodeSegment]

theorem lastOffset_ofRecords : (ofRecords rs).lastOffset = rs.getLast?.map (·.lastOffset) := by
  induction rs using List.reverseRecOn with
  | nil => rfl
  | append_singleton rs r ih =>
    rw [ofRecords_concat, getLast?_append]
    rfl

theorem marks_concat (rs : List WalRecord) (r : WalRecord) :
    (ofRecords (rs ++ [r])).marks = (ofRecords rs).marks ∨
    (ofRecords (rs ++ [r])).marks =
      (ofRecords rs).marks ++ [(r.baseOffset, (encodeSegment rs).length)] := by
  rw [ofRecords_concat, add, indexedLen_ofRecords]
  split
  · exact .inr rfl
  · exact .inl rfl

theorem mem_marks (h : x ∈ (ofRecords rs).marks) :
    ∃ front r back, rs = front ++ r :: back ∧ x = (r.baseOffset, (encodeSegment front).length) := by
  induction rs using List.reverseRecOn with
  | nil => cases h
  | append_singleton rs r ih =>
    have hold : x ∈ (ofRecords rs).marks → ∃ front q back, rs ++ [r] = front ++ q :: back ∧
        x = (q.baseOffset, (encodeSegment front).length) := by
      intro hx
      obtain ⟨front, q, back, rfl, hq⟩ := ih hx
      exact ⟨front, q, back ++ [r], by simp, hq⟩
    rcases marks_concat rs r with heq | heq
    · exact hold (heq ▸ h)
    rw [heq] at h
    rcases mem_concat.1 h with hx | hx
    · exact hold hx
    · exact ⟨rs, r, [], rfl, hx⟩

theorem head?_marks (h : rs ≠ []) : ∃ b, (ofRecords rs).marks.head? = some (b, 0) := by
  induction rs using List.reverseRecOn with
  | nil => exact absurd rfl h
  | append_singleton rs r ih =>
    rcases eq_nil_or_concat rs with rfl | ⟨rs', r', rfl⟩
    · exact ⟨r.baseOffset, rfl⟩
    obtain ⟨b, hb⟩ := ih (by simp)
    refine ⟨b, ?_⟩
    rcases marks_concat (rs'.concat r') r with heq | heq
    · rw [heq, hb]
    · rw [heq, head?_append, hb]
      rfl

theorem pairwise_marks_front : (ofRecords rs).marks.Pairwise fun x y =>
    ∃ front r back, rs = front ++ r :: back ∧ y = (r.baseOffset, (encodeSegment front).length) ∧
      ∃ q ∈ front, x.1 = q.baseOffset := by
  induction rs using List.reverseRecOn with
  | nil => exact .nil
  | append_singleton rs r ih =>
    have hold : (ofRecords rs).marks.Pairwise fun x y => ∃ front q back, rs ++ [r] = front ++ q :: back ∧
        y = (q.baseOffset, (encodeSegment front).length) ∧ ∃ p ∈ front, x.1 = p.baseOffset := by
      refine ih.imp ?_
      rintro x y ⟨front, q, back, rfl, hy, hx⟩
      exact ⟨front, q, back ++ [r], by simp, hy, hx⟩
    rcases marks_concat rs r with heq | heq
    · rwa [heq]
    rw [heq]
    refine pairwise_concat.2 ⟨hold, fun x hx => ?_⟩
    obtain ⟨front, q, back, rfl, rfl⟩ := mem_marks hx
    exact ⟨front ++ q :: back, r, [], rfl, rfl, q, by simp, rfl⟩

end SegmentMarks

theorem Sorted.pairwise_marks (h : Sorted rs)
    (hranges : ∀ r ∈ rs, r.baseOffset ≤ r.lastOffset + 1) :
    ((ofRecords rs).marks.map Prod.fst).Pairwise (· ≤ ·) := by
  refine pairwise_map.2 (pairwise_marks_front.imp_of_mem ?_)
  rintro x y - hy ⟨front, r, back, hsplit, rfl, q, hq, hx⟩
  have habove := h.mark_above front r back hsplit hy q hq
  have hrange := hranges q (hsplit ▸ mem_append_left _ hq)
  omega

theorem SegmentMarks.markIndex_lt {search : Search} {keys : List Int} (hsearch : search.Correct)
    (hkeys : keys.Pairwise (· ≤ ·)) (hne : keys ≠ []) (offset : Int) :
    markIndex (search keys offset) < keys.length := by
  cases hresult : search keys offset with
  | ok i => exact (List.getElem?_eq_some_iff.1 (hsearch.found hkeys hresult)).1
  | error i =>
  have hle := (hsearch.missing hkeys hresult).1
  have hpos := length_pos_iff.2 hne
  rw [markIndex]
  omega

namespace Sorted

section
variable {rs : List WalRecord} {search : Search} (h : Sorted rs)
  (hranges : ∀ r ∈ rs, r.baseOffset ≤ r.lastOffset + 1) (hsearch : search.Correct)
include h hranges hsearch

/-- A segment that a read passes over has no record that reaches the offset. -/
theorem lt_of_seekTo_eq_none (hseek : (ofRecords rs).seekTo search offset = none) :
    ∀ r ∈ rs, r.lastOffset < offset := by
  intro r hr
  have hne : rs ≠ [] := ne_nil_of_mem hr
  rw [seekTo, lastOffset_ofRecords, getLast?_eq_some_getLast hne, map_some, bind_some] at hseek
  split at hseek
  case isTrue hbelow =>
    have := h.last_le r hr _ (getLast?_eq_some_getLast hne)
    omega
  case isFalse =>
  obtain ⟨b, hb⟩ := head?_marks hne
  have hmarks : (ofRecords rs).marks.map Prod.fst ≠ [] := by
    intro hnil
    rw [map_eq_nil_iff.1 hnil] at hb
    cases hb
  have hlt := markIndex_lt hsearch (h.pairwise_marks hranges) hmarks offset
  rw [length_map] at hlt
  rw [getElem?_eq_getElem hlt] at hseek
  cases hseek

/-- What a seek passes over within a segment does not reach the offset. -/
theorem lt_of_seekTo_eq_some (hseek : (ofRecords rs).seekTo search offset = some p) :
    ∃ front back, rs = front ++ back ∧ p = (encodeSegment front).length ∧
      ∀ q ∈ front, q.lastOffset < offset := by
  obtain ⟨x, hx, rfl⟩ := exists_mark_of_seekTo hseek
  have hmem : x ∈ (ofRecords rs).marks := mem_of_getElem? hx
  obtain ⟨front, r, back, hsplit, rfl⟩ := mem_marks hmem
  refine ⟨front, r :: back, hsplit, rfl, ?_⟩
  have habove := h.mark_above front r back hsplit hmem
  have hkeys := h.pairwise_marks hranges
  have hkey : ∀ i : Nat, (ofRecords rs).marks[i]? =
      some (r.baseOffset, (encodeSegment front).length) →
      ((ofRecords rs).marks.map Prod.fst)[i]? = some r.baseOffset := by
    intro i hi
    rw [getElem?_map, hi]
    rfl
  cases hresult : search ((ofRecords rs).marks.map Prod.fst) offset with rw [hresult] at hx
  | ok i =>
    have hfound := hsearch.found hkeys hresult
    rw [hkey i hx] at hfound
    rw [← some.inj hfound]
    exact habove
  | error i =>
  obtain ⟨-, hbelow, -⟩ := hsearch.missing hkeys hresult
  cases i with
  | zero =>
    -- the mark is the first one, at byte 0
    obtain ⟨b, hb⟩ := head?_marks (show rs ≠ [] by rw [hsplit]; simp)
    rw [head?_eq_getElem?] at hb
    have hzero := (some.inj (hx.symm.trans hb))
    have hlen := length_le_length_encodeSegment front
    rw [Prod.mk.injEq] at hzero
    rw [length_eq_zero_iff.1 (show front.length = 0 by omega)]
    exact forall_mem_nil _
  | succ i =>
    have hlt : r.baseOffset < offset := by
      refine hbelow _ (mem_of_getElem? (i := i) ?_)
      rw [getElem?_take_of_lt (Nat.lt_succ_self i)]
      exact hkey i hx
    intro q hq
    have := habove q hq
    omega

end

end Sorted

/-! ## Reads of sorted segments -/

section
variable {search : Search} {offset : Int} {maxRecords : Nat} {f : SegmentImage}

theorem SegmentImage.refresh_new (f : SegmentImage) :
    new.refresh f.bytes = .ofRecords f.records := by
  rw [refresh, ite_self]
  split
  case isTrue hempty =>
    have hlen := length_le_length_encodeSegment f.records
    rw [SegmentImage.bytes, length_append] at hempty
    have hzero : (encodeSegment f.records).length + f.torn.length = 0 := hempty
    rw [length_eq_zero_iff.1 (show f.records.length = 0 by omega)]
    rfl
  case isFalse =>
    have hlen := length_le_length_encodeSegment f.records
    have hfuel : f.records.length ≤ f.bytes.length := by
      rw [SegmentImage.bytes, length_append]
      omega
    exact extend_encodeSegment f.wellFormed f.noRecord hfuel

theorem SegmentImage.readFile_drop (f : SegmentImage) (hsplit : f.records = front ++ back) :
    readFile offset maxRecords acc f.bytes (encodeSegment front).length =
      back.foldl (keep offset maxRecords) acc := by
  rw [readFile]
  split
  case isTrue hfull => exact (foldl_keep_of_le hfull).symm
  case isFalse =>
  have hdrop : f.bytes.drop (encodeSegment front).length = encodeSegment back ++ f.torn := by
    rw [SegmentImage.bytes, hsplit, encodeSegment_append, append_assoc, drop_left]
  have hfuel : back.length ≤ f.bytes.length := by
    have := length_le_length_encodeSegment f.records
    have : f.records.length = front.length + back.length := by rw [hsplit, length_append]
    rw [SegmentImage.bytes, length_append]
    omega
  rw [hdrop]
  refine readSegmentFrom_encodeSegment (fun r hr => f.wellFormed r ?_) f.noRecord hfuel
  rw [hsplit]
  exact mem_append_right _ hr

def recordsAt : Nat → List WalRecord → List WalRecord
  | _, [] => []
  | p, r :: rs => if p = 0 then r :: rs else recordsAt (p - r.toBytes.length) rs

theorem recordsAt_length (front back : List WalRecord) :
    recordsAt (encodeSegment front).length (front ++ back) = back := by
  induction front with
  | nil =>
    cases back with
    | nil => rfl
    | cons r rs => exact if_pos rfl
  | cons q front ih =>
    have hlen := q.length_toBytes
    have hbytes : (encodeSegment (q :: front)).length =
        q.toBytes.length + (encodeSegment front).length := by
      rw [encodeSegment, flatMap_cons, length_append]
      rfl
    rw [cons_append, recordsAt, if_neg (by omega), hbytes, Nat.add_sub_cancel_left]
    exact ih

/-- The records of a segment that an indexed read walks over. -/
def walked (search : Search) (offset : Int) (f : SegmentImage) : List WalRecord :=
  match (ofRecords f.records).seekTo search offset with
  | none => []
  | some p => recordsAt p f.records

theorem exists_front_of_seekTo (hseek : (ofRecords rs).seekTo search offset = some p) :
    ∃ front back, rs = front ++ back ∧ p = (encodeSegment front).length := by
  obtain ⟨x, hx, rfl⟩ := exists_mark_of_seekTo hseek
  obtain ⟨front, r, back, hsplit, rfl⟩ := mem_marks (mem_of_getElem? hx)
  exact ⟨front, r :: back, hsplit, rfl⟩

theorem walked_suffix (search : Search) (offset : Int) (f : SegmentImage) :
    walked search offset f <:+ f.records := by
  rw [walked]
  split
  case h_1 => exact nil_suffix
  case h_2 p hseek =>
  obtain ⟨front, back, hsplit, rfl⟩ := exists_front_of_seekTo hseek
  rw [hsplit, recordsAt_length]
  exact suffix_append _ _

theorem readFrom_eq (search : Search) (files : List (Nat × SegmentImage)) (offset : Int)
    (maxRecords : Nat) :
    (PartitionIndex.readFrom search [] (files.map fun f => (f.1, f.2.bytes)) offset maxRecords).2 =
      ((files.flatMap fun f => walked search offset f.2).foldl (keep offset maxRecords) (0, [])).2 := by
  have hindex : PartitionIndex.refresh [] (files.map fun f => (f.1, f.2.bytes)) =
      files.map fun f => (f.1, .ofRecords f.2.records) := by
    rw [PartitionIndex.refresh, List.map_map]
    exact map_congr_left fun f _ => by
      rw [Function.comp_apply, lookup_nil, Option.getD_none, f.2.refresh_new]
  rw [PartitionIndex.readFrom, hindex, PartitionIndex.plan, zip_map', filterMap_map,
    foldl_filterMap, foldl_flatMap]
  refine congrArg Prod.snd (foldl_ext _ _ _ fun acc f _ => ?_)
  dsimp only [Function.comp_apply]
  rw [walked]
  cases hseek : (ofRecords f.2.records).seekTo search offset with
  | none => rfl
  | some p =>
  obtain ⟨front, back, hsplit, rfl⟩ := exists_front_of_seekTo hseek
  dsimp only [map_some]
  rw [f.2.readFile_drop hsplit, hsplit, recordsAt_length]

theorem scanFiles_eq (files : List (Nat × SegmentImage)) (offset : Int) (maxRecords : Nat) :
    scanFiles (files.map fun f => (f.1, f.2.bytes)) offset maxRecords =
      ((files.flatMap fun f => f.2.records).foldl (keep offset maxRecords) (0, [])).2 := by
  rw [scanFiles, foldl_map, foldl_flatMap]
  refine congrArg Prod.snd (foldl_ext _ _ _ fun acc f _ => ?_)
  exact f.2.readFile_drop (nil_append _).symm

theorem foldl_walked (hsearch : search.Correct) (hsorted : Sorted f.records) :
    (walked search offset f).foldl (keep offset maxRecords) acc =
      f.records.foldl (keep offset maxRecords) acc := by
  rw [walked]
  split
  case h_1 hseek =>
    exact (foldl_keep_of_lt (hsorted.lt_of_seekTo_eq_none f.ranges hsearch hseek)).symm
  case h_2 p hseek =>
    obtain ⟨front, back, hsplit, rfl, hlt⟩ := hsorted.lt_of_seekTo_eq_some f.ranges hsearch hseek
    rw [hsplit, recordsAt_length, foldl_append, foldl_keep_of_lt hlt]

end

/-! ## Records that a seek passes over -/

def lastAtMost (key : Int) : List Int → Option Nat
  | [] => none
  | k :: keys =>
    match lastAtMost key keys with
    | some i => some (i + 1)
    | none => if k ≤ key then some 0 else none

/-- A search that goes by the last key that is not too large, also where the keys do not ascend. -/
def Search.byLast : Search := fun keys key =>
  match lastAtMost key keys with
  | none => .error 0
  | some i => if keys[i]? = some key then .ok i else .error (i + 1)

theorem lastAtMost_eq_none {keys : List Int} (h : lastAtMost key keys = none) : ∀ k ∈ keys, key < k := by
  induction keys with
  | nil => exact forall_mem_nil _
  | cons k keys ih =>
    rw [lastAtMost] at h
    split at h
    · cases h
    rename_i hnone
    split at h
    · cases h
    · exact forall_mem_cons.2 ⟨by omega, ih hnone⟩

theorem lastAtMost_eq_some {keys : List Int} (h : lastAtMost key keys = some i) :
    (∃ k, keys[i]? = some k ∧ k ≤ key) ∧ ∀ k ∈ keys.drop (i + 1), key < k := by
  induction keys generalizing i with
  | nil => cases h
  | cons k keys ih =>
    rw [lastAtMost] at h
    split at h
    · rename_i j hj
      cases h
      exact ih hj
    · rename_i hnone
      split at h <;> cases h
      exact ⟨⟨k, rfl, ‹_›⟩, lastAtMost_eq_none hnone⟩

theorem Search.byLast_correct : Search.byLast.Correct where
  found {keys key i} _ h := by
    rw [Search.byLast] at h
    split at h
    · cases h
    split at h
    · cases h
      assumption
    · cases h
  missing {keys key i} hkeys h := by
    rw [Search.byLast] at h
    split at h
    · rename_i hnone
      cases h
      exact ⟨Nat.zero_le _, forall_mem_nil _, lastAtMost_eq_none hnone⟩
    rename_i j hj
    split at h
    · cases h
    rename_i hne
    cases h
    obtain ⟨⟨k, hk, hle⟩, habove⟩ := lastAtMost_eq_some hj
    obtain ⟨hlt, hget⟩ := List.getElem?_eq_some_iff.1 hk
    have hkey : k < key := by
      rcases Int.lt_or_eq_of_le hle with hlt | rfl
      · exact hlt
      · exact absurd hk hne
    refine ⟨hlt, fun k' hk' => ?_, habove⟩
    rw [take_succ_eq_append_getElem hlt, hget] at hk'
    rcases mem_concat.1 hk' with hk' | rfl
    · have hsplit : keys = keys.take j ++ k :: keys.drop (j + 1) := by
        rw [← hget, getElem_cons_drop, take_append_drop]
      rw [hsplit] at hkeys
      exact lt_of_le_of_lt ((pairwise_append.1 hkeys).2.2 k' hk' k (.head _)) hkey
    · exact hkey

/-- It goes at least as far as any key that is not too large. -/
theorem Search.le_markIndex_byLast {keys : List Int} (hj : keys[j]? = some k)
    (hk : k ≤ key) : j ≤ markIndex (Search.byLast keys key) := by
  have hmem := mem_of_getElem? hj
  rw [Search.byLast]
  cases hlast : lastAtMost key keys with
  | none =>
    have := lastAtMost_eq_none hlast k hmem
    omega
  | some i =>
  have hle : j ≤ i := by
    by_contra hlt
    have : k ∈ keys.drop (i + 1) :=
      mem_iff_getElem?.2 ⟨j - (i + 1), by rw [getElem?_drop, ← hj]; congr 1; omega⟩
    have := (lastAtMost_eq_some hlast).2 k this
    omega
  dsimp only
  split <;> exact hle

theorem SegmentMarks.pairwise_marks_position (rs : List WalRecord) :
    (ofRecords rs).marks.Pairwise (·.2 < ·.2) := by
  induction rs using List.reverseRecOn with
  | nil => exact .nil
  | append_singleton rs r ih =>
    rcases marks_concat rs r with heq | heq
    · rwa [heq]
    rw [heq]
    refine pairwise_concat.2 ⟨ih, fun x hx => ?_⟩
    obtain ⟨front, q, back, rfl, rfl⟩ := mem_marks hx
    have := q.length_toBytes
    rw [encodeSegment_append, length_append, encodeSegment, encodeSegment, flatMap_cons,
      length_append]
    omega

theorem exists_foldl_keep (offset : Int) (rs : List WalRecord) (acc : Nat × List WalRecord) :
    ∃ enough, ∀ maxRecords, enough ≤ maxRecords →
      (rs.foldl (keep offset maxRecords) acc).2 = acc.2 ++ rs.filter (offset ≤ ·.lastOffset) := by
  induction rs generalizing acc with
  | nil => exact ⟨0, fun _ _ => (append_nil _).symm⟩
  | cons r rs ih =>
    obtain ⟨n, hn⟩ := ih (acc.1 + r.layout.messages, acc.2 ++ [r])
    obtain ⟨n', hn'⟩ := ih acc
    refine ⟨max (max n n') (acc.1 + 1), fun maxRecords hmax => ?_⟩
    rw [foldl_cons, keep]
    by_cases hr : offset ≤ r.lastOffset
    · rw [if_pos ⟨hr, by omega⟩, hn _ (by omega), filter_cons_of_pos (by simpa using hr),
        append_assoc, singleton_append]
    · rw [if_neg (fun h => hr h.1), hn' _ (by omega), filter_cons_of_neg (by simpa using hr)]

/-- A record that reaches the offset and that an indexed read passes over is missing in a read with
room for all messages. -/
theorem readFrom_ne_of_passed {search : Search} {files : List (Nat × SegmentImage)} (hf : f ∈ files)
    (hpassed : ((walked search offset f.2).filter (offset ≤ ·.lastOffset)).length <
      (f.2.records.filter (offset ≤ ·.lastOffset)).length) :
    ∃ maxRecords,
      (PartitionIndex.readFrom search [] (files.map fun f => (f.1, f.2.bytes)) offset maxRecords).2 ≠
        scanFiles (files.map fun f => (f.1, f.2.bytes)) offset maxRecords := by
  obtain ⟨n, hn⟩ := exists_foldl_keep offset (files.flatMap fun f => walked search offset f.2) (0, [])
  obtain ⟨n', hn'⟩ := exists_foldl_keep offset (files.flatMap fun f => f.2.records) (0, [])
  refine ⟨max n n', fun heq => ?_⟩
  rw [readFrom_eq, scanFiles_eq, hn _ (le_max_left _ _), hn' _ (le_max_right _ _)] at heq
  obtain ⟨before, behind, rfl⟩ := append_of_mem hf
  have hle : ∀ fs : List (Nat × SegmentImage),
      ((fs.flatMap fun f => walked search offset f.2).filter (offset ≤ ·.lastOffset)).length ≤
        ((fs.flatMap fun f => f.2.records).filter (offset ≤ ·.lastOffset)).length := by
    intro fs
    induction fs with
    | nil => exact le_refl _
    | cons g fs ih =>
      have := ((walked_suffix search offset g.2).sublist.filter (offset ≤ ·.lastOffset)).length_le
      simp only [flatMap_cons, filter_append, length_append]
      omega
  have hlength := congrArg List.length heq
  have hbefore := hle before
  have hbehind := hle behind
  simp only [nil_append, flatMap_append, flatMap_cons, filter_append, length_append] at hlength
  omega

/-- Where the last record ends below another one, a read from the end of that one passes over the
segment. -/
theorem passed_of_last_lt (search : Search) (hr : r ∈ f.records)
    (hz : z ∈ f.records.getLast?) (hlt : z.lastOffset < r.lastOffset) :
    ((walked search r.lastOffset f).filter (r.lastOffset ≤ ·.lastOffset)).length <
      (f.records.filter (r.lastOffset ≤ ·.lastOffset)).length := by
  have hseek : (ofRecords f.records).seekTo search r.lastOffset = none := by
    rw [seekTo, lastOffset_ofRecords, hz, map_some, bind_some, if_pos hlt]
  rw [walked, hseek]
  exact length_pos_of_mem (mem_filter.2 ⟨hr, by simp⟩)

/-- Where a marked record starts at or below the end of one before it, a read from there can start
at the mark. -/
theorem passed_of_mark_le (hsplit : f.records = front ++ r :: back)
    (hmark : (r.baseOffset, (encodeSegment front).length) ∈ (ofRecords f.records).marks)
    (hq : q ∈ front) (hle : r.baseOffset ≤ q.lastOffset) :
    ((walked .byLast q.lastOffset f).filter (q.lastOffset ≤ ·.lastOffset)).length <
      (f.records.filter (q.lastOffset ≤ ·.lastOffset)).length := by
  have hmem : q ∈ f.records.filter (q.lastOffset ≤ ·.lastOffset) :=
    mem_filter.2 ⟨hsplit ▸ mem_append_left _ hq, by simp⟩
  rw [walked]
  split
  case h_1 => exact length_pos_of_mem hmem
  case h_2 p hseek =>
  obtain ⟨front', back', hsplit', hp⟩ := exists_front_of_seekTo hseek
  -- the search goes to the mark of `r` or to one behind it
  have hposition : (encodeSegment front).length ≤ p := by
    obtain ⟨x, hx, rfl⟩ := exists_mark_of_seekTo hseek
    obtain ⟨j, hj⟩ := mem_iff_getElem?.1 hmark
    have hkey : ((ofRecords f.records).marks.map Prod.fst)[j]? = some r.baseOffset := by
      rw [getElem?_map, hj]
      rfl
    have hindex := Search.le_markIndex_byLast hkey hle
    obtain ⟨hi, hxi⟩ := List.getElem?_eq_some_iff.1 hx
    obtain ⟨hj', hxj⟩ := List.getElem?_eq_some_iff.1 hj
    rcases Nat.lt_or_eq_of_le hindex with hlt | heq
    · have hpos := pairwise_iff_getElem.1
        (pairwise_marks_position f.records) _ _ hj' hi hlt
      rw [hxi, hxj] at hpos
      exact le_of_lt hpos
    · rw [← heq, hj] at hx
      rw [← some.inj hx]
  have hq' : q ∈ front' := by
    rcases prefix_or_prefix_of_prefix (hsplit ▸ prefix_append _ _ : front <+: f.records)
      (hsplit' ▸ prefix_append _ _ : front' <+: f.records) with hshorter | ⟨t, rfl⟩
    · exact hshorter.subset hq
    have hlen := length_le_length_encodeSegment t
    rw [encodeSegment_append, length_append] at hposition
    rwa [length_eq_zero_iff.1 (show t.length = 0 by omega), append_nil] at hq
  have hpos : 0 < (front'.filter (q.lastOffset ≤ ·.lastOffset)).length :=
    length_pos_of_mem (mem_filter.2 ⟨hq', by simp⟩)
  rw [hp, hsplit', recordsAt_length, filter_append, length_append]
  omega

theorem Sorted.of_ascending (h : Ascending rs)
    (hranges : ∀ r ∈ rs, r.baseOffset ≤ r.lastOffset + 1) : Sorted rs where
  last_le r hr z hz := by
    have hrange := hranges z (mem_of_getLast? hz)
    rcases h.eq_or_of_getLast? hz hr with rfl | hlt
    · exact le_refl _
    · have hlt : r.lastOffset < z.baseOffset := hlt
      omega
  mark_above front r back hsplit _ q hq := by
    rw [hsplit] at h
    exact (pairwise_append.1 h).2.2 q hq r (.head _)

/-- An indexed read returns what a scan from byte 0 returns, at every offset and with every limit,
if and only if every segment is sorted. -/
theorem readFrom_eq_scan_iff (files : List (Nat × SegmentImage)) :
    (∀ search : Search, search.Correct → ∀ (offset : Int) (maxRecords : Nat),
      (PartitionIndex.readFrom search [] (files.map fun f => (f.1, f.2.bytes)) offset maxRecords).2 =
        scanFiles (files.map fun f => (f.1, f.2.bytes)) offset maxRecords) ↔
      ∀ f ∈ files, Sorted f.2.records := by
  constructor
  · intro h f hf
    constructor
    · intro r hr z hz
      by_contra hlt
      obtain ⟨maxRecords, hne⟩ := readFrom_ne_of_passed hf
        (passed_of_last_lt .byLast hr hz (not_le.1 hlt))
      exact hne (h .byLast Search.byLast_correct _ _)
    · intro front r back hsplit hmark q hq
      by_contra hle
      obtain ⟨maxRecords, hne⟩ := readFrom_ne_of_passed hf
        (passed_of_mark_le hsplit hmark hq (not_lt.1 hle))
      exact hne (h .byLast Search.byLast_correct _ _)
  · intro hsorted search hsearch offset maxRecords
    rw [readFrom_eq, scanFiles_eq, foldl_flatMap, foldl_flatMap]
    exact congrArg Prod.snd
      (foldl_ext _ _ _ fun acc f hf => foldl_walked hsearch (hsorted f hf))

namespace IndexedReadFixture

/-- A record without payload at the offsets from `base` to `last`. -/
def record (base last : Int) : WalRecord := .newV2 0 "t" 0 [] base last (last - base + 1)

/-- Two appends raced: the later range reached the file first. -/
def reordered : SegmentImage where
  records := [record 5 9, record 0 4]
  torn := []
  wellFormed := by decide
  ranges := by decide
  noRecord := parseRecord_nil_ne

end IndexedReadFixture

/-- A read from 5 misses the record at 5 to 9: the last record of the segment ends at 4. -/
theorem indexed_read_misses_reordered_append :
    ¬ ∀ (files : List (Nat × SegmentImage)) (search : Search), search.Correct →
      ∀ (offset : Int) (maxRecords : Nat),
        (PartitionIndex.readFrom search [] (files.map fun f => (f.1, f.2.bytes)) offset maxRecords).2 =
          scanFiles (files.map fun f => (f.1, f.2.bytes)) offset maxRecords := by
  intro h
  have hread := h [(0, IndexedReadFixture.reordered)] .byLast Search.byLast_correct 5 10
  exact absurd hread (by decide +kernel)

end ChronikStream
