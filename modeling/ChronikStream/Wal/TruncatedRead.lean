import ChronikStream.Wal.IndexRefresh
import ChronikStream.Wal.TailCache
import Mathlib.Algebra.Order.BigOperators.Group.List
import Mathlib.Algebra.Order.Group.Nat

/-!
# Reads after a truncation

`truncate_to` followed by `read_from`, on the bytes of the segment files and through an index made
before the cut. The surgery takes the files before the straddler to lie below the target; a record of
theirs that does not is still read (`read_after_truncate`).
-/

namespace ChronikStream

open Bytes OffsetRange Machine List Option PartitionIndex

/-! ## The model -/

/-- A partition of the log manager: its segment files, the cached index, the tail in memory and the
mark of durability. -/
structure ManagedPartition where
  store : SegmentStore
  index : PartitionIndex
  tail : TailCache
  committedThrough : Int

namespace ManagedPartition

/-- A truncation that returned `Ok`. The index is not told. -/
def truncateTo (p : ManagedPartition) (target : Int) : ManagedPartition :=
  { p with
    store := p.store.truncateTo target
    tail := p.tail.clear
    committedThrough := max i64Min (target - 1) }

/-- A read is answered from the tail where that can, and from the files otherwise. -/
def readFrom (search : Search) (p : ManagedPartition) (offset : Int) (maxRecords : Nat) :
    List WalRecord :=
  (p.tail.readFrom offset maxRecords p.committedThrough).getD
    (p.index.readFrom search p.store.files offset maxRecords).2

/-- The files hold these records, torn bytes behind them or none, and the index was made on them. -/
structure Holds (p : ManagedPartition) (files : List (Nat × SegmentImage)) : Prop where
  bytes : p.store.files = files.map fun f => (f.1, f.2.bytes)
  index : p.index.Tracks p.store

end ManagedPartition

/-- No record of a file before the straddler reaches the target. -/
def ClearBeforeStraddler (target : Int) (files : List (Nat × SegmentImage)) : Prop :=
  ∀ i ∈ straddlerFrom (·.2.records.head?.map base) target 0 none files,
    ∀ f ∈ files.take i, ∀ r ∈ f.2.records, last r < target
deriving Decidable

/-! ## The surgery on images -/

namespace SegmentImage

section
variable {f : SegmentImage} {target : Int}

def empty : SegmentImage where
  records := []
  torn := []
  wellFormed _ h := absurd h not_mem_nil
  ranges _ h := absurd h not_mem_nil
  noRecord := parseRecord_nil_ne

def cut (target : Int) (f : SegmentImage) : Option SegmentImage :=
  if f.records.dropWhile (last · < target) = [] then some f
  else if f.records.takeWhile (last · < target) = [] then none
  else some
    { records := f.records.takeWhile (last · < target)
      torn := []
      wellFormed := fun r hr => f.wellFormed r (takeWhile_subset _ hr)
      ranges := fun r hr => f.ranges r (takeWhile_subset _ hr)
      noRecord := parseRecord_nil_ne }

theorem apply_planSegmentTruncation (target : Int) (f : SegmentImage) :
    (planSegmentTruncation f.bytes target).apply f.bytes = (f.cut target).map bytes := by
  rw [bytes, planSegmentTruncation_append target f.wellFormed f.noRecord, cut]
  split
  case isTrue => rfl
  case isFalse =>
  split
  case isTrue => rfl
  case isFalse => exact congrArg some (append_nil _).symm

theorem last_lt_of_dropWhile (h : f.records.dropWhile (last · < target) = [])
    (hr : r ∈ f.records) : last r < target := by
  simpa using dropWhile_eq_nil_iff.1 h r hr

theorem last_lt_of_cut (h : f.cut target = some f') (hr : r ∈ f'.records) : last r < target := by
  rw [cut] at h
  split at h
  case isTrue hall =>
    cases h
    exact last_lt_of_dropWhile hall hr
  case isFalse =>
    obtain ⟨-, rfl⟩ := of_not_guard h
    simpa using mem_takeWhile_imp hr

theorem records_eq_nil (h : f.bytes = []) : f.records = [] := by
  have hlen := length_le_length_encodeSegment f.records
  have henc := congrArg List.length (append_eq_nil_iff.1 h).1
  rw [length_nil] at henc
  exact length_eq_zero_iff.1 (by omega)

theorem length_bytes (f : SegmentImage) (target : Int) :
    f.bytes.length = (encodeSegment (f.records.takeWhile (last · < target))).length +
      (encodeSegment (f.records.dropWhile (last · < target))).length + f.torn.length := by
  have hsplit : encodeSegment f.records = encodeSegment (f.records.takeWhile (last · < target)) ++
      encodeSegment (f.records.dropWhile (last · < target)) := by
    rw [← encodeSegment_append, takeWhile_append_dropWhile]
  rw [bytes, hsplit, length_append, length_append]

/-- A cut does not make a file longer, and one that it leaves as long has nothing to lose. -/
theorem length_cut (h : f.cut target = some f') :
    f'.bytes.length ≤ f.bytes.length ∧
      (f'.bytes.length = f.bytes.length → ∀ r ∈ f.records, last r < target) := by
  have hlen := f.length_bytes target
  rw [cut] at h
  split at h
  case isTrue hall =>
    cases h
    exact ⟨le_refl _, fun _ r hr => last_lt_of_dropWhile hall hr⟩
  case isFalse hgone =>
  obtain ⟨-, rfl⟩ := of_not_guard h
  have hpos := length_pos_iff.2 hgone
  have hle := length_le_length_encodeSegment (f.records.dropWhile (last · < target))
  have hcut : ∀ f' : SegmentImage, f'.torn = [] →
      f'.bytes.length = (encodeSegment f'.records).length := by
    intro f' htorn
    rw [bytes, htorn, append_nil]
  rw [hcut _ rfl]
  dsimp only
  omega

end

end SegmentImage

def truncateImages (target : Int) (files : List (Nat × SegmentImage)) : List (Nat × SegmentImage) :=
  truncateFiles (·.2.records.head?.map base) (fun f => (f.2.cut target).map (f.1, ·))
    (·.2.bytes.isEmpty) target files

section
variable {s : SegmentStore} {files : List (Nat × SegmentImage)} {target : Int}

theorem SegmentStore.truncatedFiles_images (h : s.files = files.map fun f => (f.1, f.2.bytes)) :
    s.truncatedFiles target = (truncateImages target files).map fun f => (f.1, f.2.bytes) := by
  rw [SegmentStore.truncatedFiles, h]
  refine truncateFiles_map target (fun f _ => ?_) (fun f _ => ?_) fun _ _ => rfl
  · exact firstRecordOffset_append f.2.wellFormed f.2.noRecord
  · rw [f.2.apply_planSegmentTruncation, Option.map_map, Option.map_map]
    rfl

theorem ClearBeforeStraddler.last_lt (h : ClearBeforeStraddler target files)
    (hf : f ∈ truncateImages target files) (hr : r ∈ f.2.records) : last r < target := by
  rcases mem_truncateFiles_cases hf with ⟨i, hi, hf⟩ | ⟨file, -, hcut⟩ | ⟨-, hempty⟩
  · exact h i hi f hf r hr
  · obtain ⟨f', hf', rfl⟩ := map_eq_some_iff.1 hcut
    exact SegmentImage.last_lt_of_cut hf' hr
  · rw [SegmentImage.records_eq_nil (List.isEmpty_iff.1 hempty)] at hr
    cases hr

/-- A file stood before the straddler, or is the straddler and has lost nothing, or is empty. -/
theorem of_sum_truncateFiles {φ : Type*} {first : φ → Option Int} {cut : φ → Option φ}
    {isEmpty : φ → Bool} {files : List φ} (size : φ → Nat)
    (hcut : ∀ f f', cut f = some f' → size f' ≤ size f) (hempty : ∀ f, isEmpty f → size f = 0)
    (hsum : ((truncateFiles first cut isEmpty target files).map size).sum = (files.map size).sum)
    {f : φ} (hf : f ∈ files) :
    (∃ i ∈ straddlerFrom first target 0 none files, f ∈ files.take i) ∨
      (∃ f', cut f = some f' ∧ size f' = size f) ∨ size f = 0 := by
  have hfilter : ∀ l : List φ, ((l.filter isEmpty).map size).sum = 0 := by
    intro l
    rw [sum_eq_zero_iff]
    intro n hn
    obtain ⟨f, hf, rfl⟩ := mem_map.1 hn
    exact hempty f (mem_filter.1 hf).2
  have hzero : ∀ l : List φ, (l.map size).sum = 0 → f ∈ l → size f = 0 := fun l hl hf =>
    sum_eq_zero_iff.1 hl _ (mem_map_of_mem hf)
  rw [truncateFiles] at hsum
  split at hsum
  case h_1 =>
    rw [hfilter] at hsum
    exact .inr (.inr (hzero files hsum.symm hf))
  case h_2 i hi =>
  have hsplit : files = files.take i ++ (files[i]?.toList ++ files.drop (i + 1)) := by
    rw [← drop_eq_getElem?_toList_append, take_append_drop]
  have htotal := congrArg (fun l => (l.map size).sum) hsplit
  simp only [map_append, sum_append, hfilter, add_zero] at hsum htotal
  rw [hsplit, mem_append, mem_append] at hf
  rcases hf with hf | hf | hf
  · exact .inl ⟨i, hi, hf⟩
  · rw [mem_toList.1 hf] at hsum htotal
    simp only [bind_some, toList_some, map_singleton, sum_singleton]
      at hsum htotal
    cases hcutf : cut f with
    | none =>
      rw [hcutf] at hsum
      simp only [toList_none, map_nil, sum_nil] at hsum
      exact .inr (.inr (by omega))
    | some f' =>
      have := hcut f f' hcutf
      rw [hcutf] at hsum
      simp only [toList_some, map_singleton, sum_singleton] at hsum
      exact .inr (.inl ⟨f', rfl, by omega⟩)
  · refine .inr (.inr (hzero _ ?_ hf))
    have hle : (((files[i]?.bind cut).toList).map size).sum ≤ ((files[i]?.toList).map size).sum := by
      cases hat : files[i]? with
      | none => exact le_refl _
      | some g =>
      cases hg : cut g with
      | none => simp [hg]
      | some g' => simpa [hg] using hcut g g' hg
    omega

/-- Where the surgery removes no bytes, all records lay below the target. -/
theorem ClearBeforeStraddler.last_lt_of_sum (h : ClearBeforeStraddler target files)
    (hsum : ((truncateImages target files).map fun f => f.2.bytes.length).sum =
      (files.map fun f => f.2.bytes.length).sum)
    {f : Nat × SegmentImage} (hf : f ∈ files) {r : WalRecord} (hr : r ∈ f.2.records) :
    last r < target := by
  have hcase := of_sum_truncateFiles (fun f : Nat × SegmentImage => f.2.bytes.length)
    (fun f f' hcut => ?_) (fun f hempty => ?_) hsum hf
  · rcases hcase with ⟨i, hi, hf⟩ | ⟨f', hcut, hlen⟩ | hzero
    · exact h i hi f hf r hr
    · obtain ⟨g, hg, rfl⟩ := map_eq_some_iff.1 hcut
      exact (SegmentImage.length_cut hg).2 hlen r hr
    · rw [SegmentImage.records_eq_nil (length_eq_zero_iff.1 hzero)] at hr
      cases hr
  · obtain ⟨g, hg, rfl⟩ := map_eq_some_iff.1 hcut
    exact (SegmentImage.length_cut hg).1
  · rw [List.isEmpty_iff.1 hempty, length_nil]

/-- The files after a truncation are images: those from before where no byte would go, else what the
surgery leaves and a new one. -/
theorem SegmentStore.exists_images (target : Int)
    (hfiles : s.files = files.map fun f => (f.1, f.2.bytes)) :
    ∃ left : List (Nat × SegmentImage),
      (s.truncateTo target).files = left.map (fun f => (f.1, f.2.bytes)) ∧
        (left = files ∧ ((truncateImages target files).map fun f => f.2.bytes.length).sum =
            (files.map fun f => f.2.bytes.length).sum ∨
          left = truncateImages target files ++ [(s.activeId + 1, .empty)]) := by
  rw [SegmentStore.truncateTo, SegmentStore.truncatedFiles_images hfiles]
  split
  case isTrue hsum =>
    rw [hfiles, List.map_map, List.map_map] at hsum
    exact ⟨files, hfiles, .inl ⟨rfl, hsum⟩⟩
  case isFalse =>
    refine ⟨_, ?_, .inr rfl⟩
    rw [map_append]
    rfl

end

/-! ## Reads -/

theorem mem_foldl_keep {offset : Int} {maxRecords : Nat} {rs : List WalRecord}
    (h : r ∈ (rs.foldl (keep offset maxRecords) acc).2) : r ∈ acc.2 ∨ r ∈ rs := by
  induction rs generalizing acc with
  | nil => exact .inl h
  | cons x rs ih =>
    rcases ih h with hacc | hmem
    · rw [keep] at hacc
      split at hacc
      case isTrue =>
        rcases mem_concat.1 hacc with hacc | rfl
        · exact .inl hacc
        · exact .inr (.head _)
      case isFalse => exact .inl hacc
    · exact .inr (.tail _ hmem)

theorem exists_mem_of_mem_readFrom {search : Search} {files : List (Nat × SegmentImage)} {offset : Int}
    (h : r ∈ (PartitionIndex.readFrom search [] (files.map fun f => (f.1, f.2.bytes)) offset
      maxRecords).2) : ∃ f ∈ files, r ∈ f.2.records := by
  rw [readFrom_eq] at h
  rcases mem_foldl_keep h with h | h
  · cases h
  · obtain ⟨f, hf, hr⟩ := mem_flatMap.1 h
    exact ⟨f, hf, (walked_suffix search offset f.2).subset hr⟩

theorem lastAtMost_of_lt {keys : List Int} (h : ∀ k ∈ keys, key < k) : lastAtMost key keys = none := by
  induction keys with
  | nil => rfl
  | cons k keys ih =>
    obtain ⟨hk, hkeys⟩ := forall_mem_cons.1 h
    rw [lastAtMost, ih hkeys]
    exact if_neg (not_le.2 hk)

/-- A read from below all offsets walks the whole file. -/
theorem walked_of_lt (f : SegmentImage)
    (h : ∀ r ∈ f.records, offset < r.baseOffset ∧ offset < r.lastOffset) :
    walked .byLast offset f = f.records := by
  cases hlast : f.records.getLast? with
  | none =>
    have hnil := getLast?_eq_none_iff.1 hlast
    exact (suffix_nil.1 (hnil ▸ walked_suffix .byLast offset f)).trans hnil.symm
  | some z =>
  obtain ⟨b, hb⟩ := SegmentMarks.head?_marks (ne_nil_of_mem (mem_of_getLast? hlast))
  have hkeys : ∀ k ∈ (SegmentMarks.ofRecords f.records).marks.map Prod.fst, offset < k := by
    refine forall_mem_map.2 fun x hx => ?_
    obtain ⟨front, r, back, hsplit, rfl⟩ := SegmentMarks.mem_marks hx
    exact (h r (by rw [hsplit]; exact mem_append_right _ mem_cons_self)).1
  have hseek : (SegmentMarks.ofRecords f.records).seekTo .byLast offset = some 0 := by
    rw [SegmentMarks.seekTo, SegmentMarks.lastOffset_ofRecords, hlast, map_some, bind_some,
      if_neg (not_lt.2 (h z (mem_of_getLast? hlast)).2.le), Search.byLast, lastAtMost_of_lt hkeys]
    dsimp only [SegmentMarks.markIndex]
    rw [← head?_eq_getElem?, hb]
    rfl
  rw [walked, hseek]
  exact recordsAt_length [] f.records

theorem exists_lt_of_list (l : List Int) : ∃ low, ∀ k ∈ l, low < k := by
  induction l with
  | nil => exact ⟨0, forall_mem_nil _⟩
  | cons k l ih =>
    obtain ⟨low, hlow⟩ := ih
    refine ⟨min low (k - 1), forall_mem_cons.2 ⟨by omega, fun j hj => ?_⟩⟩
    have := hlow j hj
    omega

/-- Every record of the files is returned by some read. -/
theorem exists_readFrom {files : List (Nat × SegmentImage)} (hf : f ∈ files) (hr : r ∈ f.2.records) :
    ∃ (offset : Int) (maxRecords : Nat), r ∈ (PartitionIndex.readFrom .byLast []
      (files.map fun f => (f.1, f.2.bytes)) offset maxRecords).2 := by
  obtain ⟨low, hlow⟩ := exists_lt_of_list
    ((files.flatMap (·.2.records)).flatMap fun r => [r.baseOffset, r.lastOffset])
  have hlow : ∀ f ∈ files, ∀ r ∈ f.2.records, low < r.baseOffset ∧ low < r.lastOffset := by
    intro f hf r hr
    have hmem : r ∈ files.flatMap (·.2.records) := mem_flatMap.2 ⟨f, hf, hr⟩
    exact ⟨hlow _ (mem_flatMap.2 ⟨r, hmem, by simp⟩), hlow _ (mem_flatMap.2 ⟨r, hmem, by simp⟩)⟩
  have hall : (files.flatMap fun f => walked .byLast low f.2) = files.flatMap (·.2.records) :=
    flatMap_congr fun f hf => walked_of_lt f.2 (hlow f hf)
  obtain ⟨n, hn⟩ := exists_foldl_keep low (files.flatMap (·.2.records)) (0, [])
  refine ⟨low, n, ?_⟩
  rw [readFrom_eq, hall, hn n le_rfl, nil_append, mem_filter]
  exact ⟨mem_flatMap.2 ⟨f, hf, hr⟩, by simpa using (hlow f hf r hr).2.le⟩

namespace ManagedPartition

section
variable {p : ManagedPartition} {files : List (Nat × SegmentImage)} {target : Int}

/-- After a truncation no read returns a record that reaches the target if, and only if, no file
before the straddler held one. -/
theorem read_after_truncate (h : p.Holds files) (target : Int) :
    (∀ search : Search, search.Correct → ∀ (offset : Int) (maxRecords : Nat),
      ∀ r ∈ (p.truncateTo target).readFrom search offset maxRecords, last r < target) ↔
      ClearBeforeStraddler target files := by
  obtain ⟨left, hleft, hkept⟩ := p.store.exists_images target h.bytes
  -- The cut is behind the index's back, and the next read notices it.
  have htracks := h.index.fileStep (SegmentStore.fileStep_truncateTo p.store target)
  have hread : ∀ search offset maxRecords, (p.truncateTo target).readFrom search offset maxRecords =
      (PartitionIndex.readFrom search [] (left.map fun f => (f.1, f.2.bytes)) offset maxRecords).2 := by
    intro search offset maxRecords
    show (p.index.readFrom search (p.store.truncateTo target).files offset maxRecords).2 = _
    rw [PartitionIndex.readFrom, PartitionIndex.readFrom, htracks.refresh, hleft]
  constructor
  · intro hlt i hi f hf r hr
    have hmem : f ∈ left := by
      rcases hkept with ⟨rfl, -⟩ | rfl
      · exact mem_of_mem_take hf
      · rw [truncateImages, truncateFiles, hi]
        exact mem_append_left _ (mem_append_left _ hf)
    obtain ⟨offset, maxRecords, hr⟩ := exists_readFrom hmem hr
    rw [← hread] at hr
    exact hlt .byLast Search.byLast_correct offset maxRecords r hr
  · intro hclear search _ offset maxRecords r hr
    rw [hread] at hr
    obtain ⟨f, hf, hmem⟩ := exists_mem_of_mem_readFrom hr
    rcases hkept with ⟨rfl, hsum⟩ | rfl
    · exact hclear.last_lt_of_sum hsum hf hmem
    · rcases mem_concat.1 hf with hf | rfl
      · exact hclear.last_lt hf hmem
      · cases hmem

end

end ManagedPartition

/-! ## Appends that raced -/

namespace TruncatedReadFixture

open IndexedReadFixture

theorem wellFormed_only_5_9 : ∀ r ∈ [record 5 9], r.WellFormed := by decide

theorem ranges_only_5_9 : ∀ r ∈ [record 5 9], r.baseOffset ≤ r.lastOffset + 1 := by decide

/-- The third range was appended before the second, and the segment was rotated between them. -/
def raced : List (Nat × SegmentImage) :=
  [(0, {
      records := [record 0 4, record 10 14]
      torn := []
      wellFormed := by decide
      ranges := by decide
      noRecord := parseRecord_nil_ne }),
    (1, {
      records := [record 5 9]
      torn := []
      wellFormed := wellFormed_only_5_9
      ranges := ranges_only_5_9
      noRecord := parseRecord_nil_ne })]

def racedRun : List SegmentStore.Action :=
  [.commit [⟨⟨record 0 4, IndexRefreshFixture.five.2⟩, true⟩, ⟨⟨record 10 14, by decide⟩, true⟩],
    .rotate, .commit [⟨⟨record 5 9, by decide⟩, true⟩]]

/-- The first two ranges were appended in the wrong order, and the write behind the third was cut
short. -/
def torn : List (Nat × SegmentImage) :=
  [(0, reordered),
    (1, {
      records := [record 10 14]
      torn := (record 15 19).toBytes.take 30
      wellFormed := by decide
      ranges := by decide
      noRecord := fun l h => by cases h })]

/-- The partition with these files, and an index that was made on them. -/
def tornPartition : ManagedPartition where
  store := ⟨[(0, reordered.bytes)], 1, (record 10 14).toBytes ++ (record 15 19).toBytes.take 30, []⟩
  index := refresh [] (torn.map fun f => (f.1, f.2.bytes))
  tail := (TailCache.new 1000).push (record 10 14) 42
  committedThrough := 14

theorem holds_tornPartition : tornPartition.Holds torn where
  bytes := by decide +kernel
  index := by
    have hfiles : tornPartition.store.files = torn.map fun f => (f.1, f.2.bytes) := by decide +kernel
    rw [tornPartition, ← hfiles]
    exact tracks_refresh_nil
      (show List.Pairwise _ [0, 1] from pairwise_pair.2 Nat.zero_lt_one)

end TruncatedReadFixture

section
open TruncatedReadFixture IndexedReadFixture

/-- The first file is not looked into, and a read from the target 10 returns its second record. -/
theorem raced_record_survives_truncation :
    ¬ ∀ (p : ManagedPartition) (files : List (Nat × SegmentImage)),
      Reaches segmentStore SegmentStore.OnBoundary p.store → p.Holds files →
      (files.flatMap (·.2.records)).Pairwise Apart →
      ∀ (target : Int) (search : Search), search.Correct → ∀ (offset : Int) (maxRecords : Nat),
        ∀ r ∈ (p.truncateTo target).readFrom search offset maxRecords, last r < target := by
  intro h
  obtain ⟨s, hs, hfiles, hread⟩ := exists_reaches_of_run segmentStore SegmentStore.OnBoundary racedRun
    (fun s => s.files = raced.map (fun f => (f.1, f.2.bytes)) ∧
      record 10 14 ∈ (PartitionIndex.readFrom .byLast [] (s.truncateTo 10).files 10 10).2) (by decide +kernel)
  have hlt := h ⟨s, [], TailCache.new 0, -1⟩ raced hs ⟨hfiles, .nil s⟩ (by decide +kernel) 10 .byLast
    Search.byLast_correct 10 10 (record 10 14) hread
  exact absurd hlt (by decide)

theorem read_after_truncate_torn :
    tornPartition.Holds torn ∧ ClearBeforeStraddler 10 torn ∧
      (tornPartition.readFrom .byLast 0 20 ≠ (tornPartition.truncateTo 10).readFrom .byLast 0 20 ∧
        (tornPartition.truncateTo 10).readFrom .byLast 0 20 ≠ []) ∧
      ∀ search : Search, search.Correct → ∀ (offset : Int) (maxRecords : Nat),
        ∀ r ∈ (tornPartition.truncateTo 10).readFrom search offset maxRecords, last r < 10 := by
  have hclear : ClearBeforeStraddler 10 torn := by decide +kernel
  exact ⟨holds_tornPartition, hclear, by decide +kernel,
    (ManagedPartition.read_after_truncate holds_tornPartition 10).2 hclear⟩

end

/-! ## The end of the log -/

/-- The highest offset a file holds. -/
def lastRecordOffset (data : List UInt8) : Option Int :=
  match planSegmentTruncation data (2 ^ 63 - 1) with
  | .keepWhole lastOffset => some lastOffset
  | _ => none

/-- Where what the straddler keeps ends. -/
def SegmentVerdict.lastKept : SegmentVerdict → Option Int
  | .keepWhole lastOffset | .cut _ lastOffset => some lastOffset
  | .empty | .deleteWhole => none

/-- `new_log_end_offset`: behind what the straddler keeps, or else behind the last record that is
left. -/
def newLogEndOffset (target : Int) (files : List (List UInt8)) : Option Int :=
  let straddler := (straddlerFrom firstRecordOffset target 0 none files).bind (files[·]?)
  let lastKept := straddler.bind fun data => (planSegmentTruncation data target).lastKept
  (lastKept.or ((truncatePartitionFiles target files).reverse.findSome? lastRecordOffset)).map (· + 1)

namespace SegmentImage

/-- The surgery on images without ids. -/
def truncateAll (target : Int) (files : List SegmentImage) : List SegmentImage :=
  truncateFiles (·.records.head?.map base) (·.cut target) (·.bytes.isEmpty) target files

section
variable {files : List SegmentImage} {target : Int}

theorem truncatePartitionFiles_bytes (files : List SegmentImage) (target : Int) :
    truncatePartitionFiles target (files.map bytes) = (truncateAll target files).map bytes :=
  truncateFiles_map target (fun f _ => firstRecordOffset_append f.wellFormed f.noRecord)
    (fun f _ => f.apply_planSegmentTruncation target) fun _ _ => rfl

theorem lastKept_planSegmentTruncation (target : Int) (f : SegmentImage) :
    (planSegmentTruncation f.bytes target).lastKept =
      (f.records.takeWhile (last · < target)).getLast?.map last := by
  rw [bytes, planSegmentTruncation_eq target f.wellFormed f.noRecord]
  split <;> cases (f.records.takeWhile (last · < target)).getLast?.map last <;> rfl

theorem findSome?_lastRecordOffset (h : ∀ f ∈ files, ∀ r ∈ f.records, last r < 2 ^ 63 - 1) :
    (files.map bytes).reverse.findSome? lastRecordOffset =
      (files.flatMap records).getLast?.map last := by
  induction files using List.reverseRecOn with
  | nil => rfl
  | append_singleton files f ih =>
    have hf : lastRecordOffset f.bytes = f.records.getLast?.map last := by
      have hall : ∀ r ∈ f.records, decide (last r < 2 ^ 63 - 1) := by simpa using h f (by simp)
      rw [lastRecordOffset, bytes, planSegmentTruncation_eq _ f.wellFormed f.noRecord,
        if_pos (dropWhile_eq_nil_iff.2 hall), takeWhile_eq_self_iff.2 hall]
      cases f.records.getLast? <;> rfl
    have hrest := ih fun g hg => h g (by simp [hg])
    simp only [map_append, map_cons, map_nil, reverse_append, reverse_singleton,
      singleton_append, findSome?_cons, hf, hrest, flatMap_append, flatMap_singleton,
      getLast?_append]
    cases f.records.getLast? <;> simp

/-- What the surgery finds and leaves, for files with torn bytes. -/
theorem truncateAll_spec (target : Int) (files : List SegmentImage) :
    (straddlerFrom (·.records.head?.map base) target 0 none files = none ∧
        (truncateAll target files).flatMap records = [] ∧
        ∀ r ∈ (files.flatMap records).head?, target ≤ base r) ∨
      ∃ pre f post, files = pre ++ f :: post ∧
        straddlerFrom (·.records.head?.map base) target 0 none files = some pre.length ∧
        (truncateAll target files).flatMap records =
          pre.flatMap records ++ f.records.takeWhile (last · < target) ∧
        (∃ r ∈ f.records.head?, base r < target) ∧
        ∀ r ∈ (post.flatMap records).head?, target ≤ base r := by
  have hmap : straddlerFrom (·.head?.map base) target 0 none (files.map records) =
      straddlerFrom (·.records.head?.map base) target 0 none files :=
    straddlerFrom_map target (fun _ _ => rfl) 0 none
  have hempty : ∀ l : List SegmentImage,
      (l.filter (·.bytes.isEmpty)).flatMap records = [] := fun l => by
    simp only [flatMap_eq_nil_iff, mem_filter, List.isEmpty_iff]
    exact fun f hf => records_eq_nil hf.2
  rcases straddlerFrom_spec target (files.map records) 0 none with
    ⟨hnone, hhead⟩ | ⟨pre, seg, post, hfiles, hsome, hseg, hpost⟩
  · rw [hmap] at hnone
    exact .inl ⟨hnone, by rw [truncateAll, truncateFiles, hnone]; exact hempty files, hhead⟩
  obtain ⟨pre, rest, rfl, rfl, hrest⟩ := List.map_eq_append_iff.1 hfiles
  obtain ⟨f, post, rfl, rfl, rfl⟩ := List.map_eq_cons_iff.1 hrest
  rw [hmap, length_map, zero_add] at hsome
  refine .inr ⟨pre, f, post, rfl, hsome, ?_, hseg, hpost⟩
  have hcut : (f.cut target).toList.flatMap records =
      f.records.takeWhile (last · < target) := by
    unfold cut
    split
    case isTrue hall =>
      have hbelow : ∀ r ∈ f.records, decide (last r < target) := fun r hr =>
        decide_eq_true (last_lt_of_dropWhile hall hr)
      simp [takeWhile_eq_self_iff.2 hbelow]
    case isFalse => split <;> simp_all
  simp [truncateAll, truncateFiles, hsome, hempty, hcut]

section
variable {rs : List WalRecord} (hasc : Ascending rs) (hne : ∀ r ∈ rs, base r ≤ last r)
include hasc hne

theorem filter_eq_nil_of_head (hhead : ∀ r ∈ rs.head?, target ≤ base r) :
    rs.filter (last · < target) = [] := by
  rw [filter_eq_nil_iff]
  intro x hx
  have := hne x hx
  cases rs with
  | nil => cases hx
  | cons r rs =>
  have := hhead r rfl
  have := hne r (.head _)
  rcases mem_cons.1 hx with rfl | hx
  · simp; omega
  · have := rel_of_pairwise_cons hasc hx
    simp; omega

theorem filter_eq_takeWhile : rs.filter (last · < target) = rs.takeWhile (last · < target) := by
  induction rs with
  | nil => rfl
  | cons r rs ih =>
    have hrest : ∀ x ∈ rs, last r < last x := fun x hx =>
      (rel_of_pairwise_cons hasc hx).trans_le (hne x (.tail _ hx))
    rw [takeWhile_cons, ← ih hasc.of_cons fun x hx => hne x (.tail _ hx), filter_cons]
    split
    · rfl
    rename_i hge
    rw [filter_eq_nil_iff]
    intro x hx
    have := hrest x hx
    simp at hge ⊢
    omega

end

theorem flatMap_truncateAll (target : Int) (hasc : Ascending (files.flatMap records))
    (hne : ∀ r ∈ files.flatMap records, base r ≤ last r) :
    (truncateAll target files).flatMap records =
      (files.flatMap records).filter (last · < target) := by
  rcases truncateAll_spec target files with
    ⟨-, hnil, hhead⟩ | ⟨pre, f, post, rfl, -, hleft, ⟨z, hz, hlt⟩, hpost⟩
  · rw [hnil, filter_eq_nil_of_head hasc hne hhead]
  rw [hleft]
  simp only [flatMap_append, flatMap_cons, Ascending, pairwise_append, forall_mem_append,
    filter_append] at hasc hne ⊢
  obtain ⟨-, ⟨hf, hpostAsc, -⟩, hpre⟩ := hasc
  rw [filter_eq_takeWhile hf hne.2.1, filter_eq_nil_of_head hpostAsc hne.2.2 hpost, append_nil,
    filter_eq_self.2 fun r hr => ?_]
  have := (hpre r hr).1 z (mem_of_mem_head? hz)
  simp
  omega

/-- Of an ordered log exactly the records below the target can be read, and the new log end is
behind the last. -/
theorem truncate_exact (files : List SegmentImage) (target : Int)
    (hasc : Ascending (files.flatMap records))
    (hne : ∀ r ∈ files.flatMap records, base r ≤ last r) (htarget : target < 2 ^ 63) :
    ∃ left : List SegmentImage,
      truncatePartitionFiles target (files.map bytes) = left.map bytes ∧
      left.flatMap records = (files.flatMap records).filter (last · < target) ∧
      newLogEndOffset target (files.map bytes) =
        (left.flatMap records).getLast?.map (last · + 1) := by
  have hleft := flatMap_truncateAll target hasc hne
  refine ⟨truncateAll target files, truncatePartitionFiles_bytes files target, hleft, ?_⟩
  have hbelow : ∀ f ∈ truncateAll target files, ∀ r ∈ f.records, last r < 2 ^ 63 - 1 := by
    intro f hf r hr
    have hmem : r ∈ (truncateAll target files).flatMap records := mem_flatMap.2 ⟨f, hf, hr⟩
    rw [hleft, mem_filter, decide_eq_true_iff] at hmem
    omega
  have hfirst : straddlerFrom firstRecordOffset target 0 none (files.map bytes) =
      straddlerFrom (·.records.head?.map base) target 0 none files :=
    straddlerFrom_map target (fun f _ => firstRecordOffset_append f.wellFormed f.noRecord) 0 none
  simp only [newLogEndOffset, hfirst, truncatePartitionFiles_bytes,
    findSome?_lastRecordOffset hbelow]
  rcases truncateAll_spec target files with
    ⟨hnone, -⟩ | ⟨pre, f, post, rfl, hsome, hleft, -⟩
  · simp [hnone, Function.comp_def]
  simp only [hsome, bind_some, map_append, map_cons, length_map,
    getElem?_append_right, le_refl, Nat.sub_self, getElem?_cons_zero,
    lastKept_planSegmentTruncation, hleft, getLast?_append]
  cases (f.records.takeWhile (last · < target)).getLast? <;> simp [Function.comp_def]

end

end SegmentImage

section
open TruncatedReadFixture

/-- A file of one record, an empty one, and one that ends in a torn write. -/
def TruncatedReadFixture.ordered : List SegmentImage :=
  [(raced.getLastD (0, .empty)).2, .empty, (torn.getLastD (0, .empty)).2]

theorem truncate_exact_ordered :
    (ordered.flatMap (·.records)).map last = [9, 14] ∧ ∃ left : List SegmentImage,
      truncatePartitionFiles 12 (ordered.map (·.bytes)) = left.map (·.bytes) ∧
        (left.flatMap (·.records)).map last = [9] ∧
        newLogEndOffset 12 (ordered.map (·.bytes)) = some 10 := by
  obtain ⟨left, hbytes, hleft, hend⟩ := SegmentImage.truncate_exact ordered 12 (by decide)
    (by decide) (by decide)
  have hlast : (left.flatMap (·.records)).map last = [9] := by rw [hleft]; decide
  exact ⟨by decide, left, hbytes, hlast, by rw [hend, hleft]; decide⟩

end

end ChronikStream
