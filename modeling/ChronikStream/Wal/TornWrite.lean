import ChronikStream.Lib.Run
import ChronikStream.Wal.SegmentScan
import Mathlib.Algebra.GroupWithZero.Nat
import Mathlib.Data.List.Nodup

/-!
# Acknowledged records under failed writes

A failed write leaves any prefix of the batch's bytes at the end of the active segment, and the
worker goes on behind it. An acknowledged record is found by a scan from byte 0 where its batch is
written to a segment that the scan reads to its end (`OnBoundary`); behind a torn record it is not.
-/

namespace ChronikStream

open Bytes Machine List

abbrev WrittenRecord := { r : WalRecord // r.WellFormed }

/-- An append that does not wait (`acks = 0`) has returned `Ok` when enqueued, one that waits when
written and synced. -/
structure CommitWrite where
  record : WrittenRecord
  waits : Bool

def combinedBuffer (batch : List CommitWrite) : List UInt8 :=
  encodeSegment (batch.map fun w => w.record.1)

/-- A record whose append returned `Ok`, with the place it was written to. -/
structure AckedEntry where
  segment : Nat
  position : Nat
  record : WalRecord
  deriving DecidableEq

/-- The segment files of a partition with the records that were acknowledged and not removed. -/
structure SegmentStore where
  sealedFiles : List (Nat × List UInt8)
  activeId : Nat
  active : List UInt8
  acked : List AckedEntry

namespace SegmentStore

variable (s : SegmentStore)

def files : List (Nat × List UInt8) :=
  s.sealedFiles ++ [(s.activeId, s.active)]

/-- The places of a batch's writes in a segment, from `pos` on. -/
def placed (segment : Nat) : Nat → List CommitWrite → List (CommitWrite × AckedEntry)
  | _, [] => []
  | pos, w :: ws =>
    (w, ⟨segment, pos, w.record.1⟩) :: placed segment (pos + w.record.1.toBytes.length) ws

def commit (batch : List CommitWrite) : SegmentStore :=
  { s with
    active := s.active ++ combinedBuffer batch
    acked := s.acked ++ (placed s.activeId s.active.length batch).map Prod.snd }

/-- The write or the sync fails after `landed` bytes: the writes that wait are told, the others have
returned `Ok` long ago. -/
def commitFails (batch : List CommitWrite) (landed : Nat) : SegmentStore :=
  { s with
    active := s.active ++ (combinedBuffer batch).take landed
    acked := s.acked ++
      ((placed s.activeId s.active.length batch).filter (¬ ·.1.waits)).map Prod.snd }

def rotateToNewSegment : SegmentStore :=
  { s with sealedFiles := s.files, activeId := s.activeId + 1, active := [] }

/-- The entry still has all its bytes in one of the files. -/
def Survives (files : List (Nat × List UInt8)) (e : AckedEntry) : Prop :=
  ∃ f ∈ files, f.1 = e.segment ∧ e.position + e.record.toBytes.length ≤ f.2.length
deriving Decidable

/-- The file surgery with the ids of the files. -/
def truncatedFiles (target : Int) : List (Nat × List UInt8) :=
  truncateFiles (firstRecordOffset ·.2)
    (fun f => ((planSegmentTruncation f.2 target).apply f.2).map (f.1, ·)) (·.2.isEmpty) target s.files

/-- A truncation: where it touches the disk it opens a new segment. -/
def truncateTo (target : Int) : SegmentStore :=
  let remaining := s.truncatedFiles target
  if (remaining.map fun f => f.2.length).sum = (s.files.map fun f => f.2.length).sum then s
  else
    { sealedFiles := remaining
      activeId := s.activeId + 1
      active := []
      acked := s.acked.filter (Survives remaining) }

def deleteSegment (segment : Nat) : SegmentStore :=
  { s with
    sealedFiles := s.sealedFiles.filter (·.1 ≠ segment)
    acked := s.acked.filter (·.segment ≠ segment) }

inductive Action where
  | commit (batch : List CommitWrite)
  | commitFails (batch : List CommitWrite) (landed : Nat)
  | rotate
  | truncate (target : Int)
  | delete (segment : Nat)

def step : Action → Option SegmentStore
  | .commit batch => some (s.commit batch)
  | .commitFails batch landed => some (s.commitFails batch landed)
  | .rotate => some s.rotateToNewSegment
  | .truncate target => some (s.truncateTo target)
  | .delete segment => if segment ≠ s.activeId then some (s.deleteSegment segment) else none

/-- Every acknowledged record that was not removed is found by a scan of its segment, with the bytes
it was written with. -/
def AckedReadable : Prop :=
  ∀ e ∈ s.acked, ∃ f ∈ s.files, f.1 = e.segment ∧ (e.position, e.record) ∈ scanSegment f.2
deriving Decidable

/-- A batch is acknowledged only in a segment that is read to its end, and a failed batch holds no
write that returned `Ok`. -/
def OnBoundary : Action → Prop
  | .commit _ => ReadToEnd s.active
  | .commitFails batch _ => ∀ w ∈ batch, w.waits = true
  | _ => True

instance : DecidableRel OnBoundary := fun _ _ => by
  unfold OnBoundary
  split <;> infer_instance

end SegmentStore

def segmentStore : Machine SegmentStore SegmentStore.Action where
  init := ⟨[], 0, [], []⟩
  step := SegmentStore.step

/-! ## Records that can be read -/

/-- The scan of `data` finds the record at `p`. -/
structure Readable (data : List UInt8) (p : Nat) (r : WalRecord) : Prop where
  found : FoundAt data p r.layout
  bytes : r.layout.toRecord (data.drop p) = some r

section
variable {data : List UInt8} {p k : Nat} {r : WalRecord}

theorem Readable.mem_scanSegment (h : Readable data p r) : (p, r) ∈ scanSegment data := by
  have hmem := h.found.mem_scanFrom h.bytes (le_refl _) 0
  rwa [zero_add] at hmem

/-- The record materialised from a layout depends on the bytes of the record only. -/
theorem WalRecord.toRecord_layout_eq (h : d.take k = e.take k)
    (hk : r.toBytes.length ≤ k) : r.layout.toRecord d = r.layout.toRecord e := by
  have hlen := r.length_toBytes
  rw [RecordLayout.toRecord, RecordLayout.toRecord]
  simp only [WalRecord.layout, Nat.add_sub_cancel_left]
  rw [slice_eq_of_take_eq h (by omega), slice_eq_of_take_eq h (by omega)]

theorem FoundAt.end_le (h : FoundAt data p l) : p + l.totalLen ≤ data.length := by
  induction h with
  | head hparse =>
    obtain ⟨-, hlen, -⟩ := parseRecord_bounds hparse
    omega
  | tail hparse _ ih =>
    obtain ⟨-, hlen, -⟩ := parseRecord_bounds hparse
    rw [length_drop] at ih
    omega

theorem Readable.end_le (h : Readable data p r) : p + r.toBytes.length ≤ data.length := by
  have := h.found.end_le
  rwa [r.layout_totalLen] at this

theorem Readable.append (h : Readable data p r) (rest : List UInt8) : Readable (data ++ rest) p r where
  found := h.found.append rest
  bytes := by
    have hend := h.end_le
    rw [← h.bytes, drop_append_of_le_length (by omega)]
    refine (WalRecord.toRecord_layout_eq ?_ (le_refl _)).symm
    rw [take_append_of_le_length (by rw [length_drop]; omega)]

theorem Readable.take (h : Readable data p r) (hk : p + r.toBytes.length ≤ k) :
    Readable (data.take k) p r where
  found := h.found.take (by rw [r.layout_totalLen]; exact hk)
  bytes := by
    rw [← h.bytes, drop_take]
    refine WalRecord.toRecord_layout_eq ?_ (le_refl _)
    rw [take_take, min_eq_left (by omega)]

theorem WholeRecords.append (h : WholeRecords data) (hrest : WholeRecords rest) :
    WholeRecords (data ++ rest) := by
  induction h with
  | nil => exact hrest
  | cons hparse _ ih =>
    obtain ⟨-, hlen, -⟩ := parseRecord_bounds hparse
    refine .cons (parseRecord_append hparse rest) ?_
    rwa [drop_append_of_le_length hlen]

theorem WalRecord.WellFormed.wholeRecords (h : r.WellFormed) : WholeRecords r.toBytes := by
  have hparse := h.parseRecord_toBytes []
  rw [append_nil] at hparse
  refine .cons hparse ?_
  rw [r.layout_totalLen, drop_length]
  exact .nil

theorem WalRecord.WellFormed.readable (h : r.WellFormed) (hdata : WholeRecords data)
    (rest : List UInt8) : Readable (data ++ (r.toBytes ++ rest)) data.length r where
  found := hdata.foundAt_append (.head (h.parseRecord_toBytes rest))
  bytes := by
    rw [drop_left]
    exact r.toRecord_layout rest

theorem readable_placed {segment : Nat} (hdata : WholeRecords data)
    (hx : x ∈ SegmentStore.placed segment data.length batch) :
    x.2.segment = segment ∧
      Readable (data ++ combinedBuffer batch) x.2.position x.2.record := by
  induction batch generalizing data with
  | nil => cases hx
  | cons w ws ih =>
    have hbuffer : combinedBuffer (w :: ws) = w.record.1.toBytes ++ combinedBuffer ws :=
      flatMap_cons
    rw [hbuffer]
    rcases mem_cons.1 hx with rfl | hx
    · exact ⟨rfl, w.record.2.readable hdata _⟩
    rw [← append_assoc]
    refine ih (hdata.append w.record.2.wholeRecords) ?_
    rwa [length_append]

end

/-! ## What a step does to the files -/

namespace SegmentStore

section
variable {s s' : SegmentStore}

/-- A step appends to the active segment, or leaves front parts of files behind a new active segment,
or removes sealed files. -/
inductive FileStep (s s' : SegmentStore) : Prop where
  | append (bytes : List UInt8) (hsealed : s'.sealedFiles = s.sealedFiles)
      (hid : s'.activeId = s.activeId) (hactive : s'.active = s.active ++ bytes)
  | reopen (hids : (s'.sealedFiles.map Prod.fst).Sublist (s.files.map Prod.fst))
      (hfront : ∀ f ∈ s'.sealedFiles, ∃ file ∈ s.files, ∃ k, f = (file.1, file.2.take k))
      (hid : s'.activeId = s.activeId + 1) (hactive : s'.active = [])
  | drop (hsealed : s'.sealedFiles.Sublist s.sealedFiles) (hid : s'.activeId = s.activeId)
      (hactive : s'.active = s.active)

theorem mem_truncatedFiles (h : f ∈ s.truncatedFiles target) :
    ∃ file ∈ s.files, ∃ k, f = (file.1, file.2.take k) := by
  rcases mem_truncateFiles h with h | ⟨file, hfile, hcut⟩
  · exact ⟨f, h, f.2.length, by rw [take_length]⟩
  obtain ⟨data, hdata, rfl⟩ := Option.map_eq_some_iff.1 hcut
  cases hverdict : planSegmentTruncation file.2 target with rw [hverdict] at hdata
  | empty | keepWhole =>
    cases hdata
    exact ⟨file, hfile, file.2.length, by rw [take_length]⟩
  | deleteWhole =>
    cases hdata
  | cut keepBytes =>
    cases hdata
    exact ⟨file, hfile, keepBytes, rfl⟩

theorem fileStep_truncateTo (s : SegmentStore) (target : Int) : FileStep s (s.truncateTo target) := by
  rw [SegmentStore.truncateTo]
  split
  case isTrue => exact .append [] rfl rfl (append_nil _).symm
  case isFalse =>
  refine .reopen (map_truncateFiles_sublist target s.files fun f f' hcut => ?_)
    (fun f hf => mem_truncatedFiles hf) rfl rfl
  obtain ⟨_, -, rfl⟩ := Option.map_eq_some_iff.1 hcut
  rfl

theorem fileStep_of_step (hs : s.step a = some s') : FileStep s s' := by
  cases a with
  | commit | commitFails => cases hs; exact .append _ rfl rfl rfl
  | rotate =>
    cases hs
    refine .reopen (.refl _) (fun f hf => ⟨f, hf, f.2.length, ?_⟩) rfl rfl
    rw [take_length]
  | truncate target => cases hs; exact fileStep_truncateTo s target
  | delete segment =>
    rw [SegmentStore.step] at hs
    split at hs
    case isTrue => cases hs; exact .drop filter_sublist rfl rfl
    case isFalse => cases hs

def AscendingIds (s : SegmentStore) : Prop := (s.files.map Prod.fst).Pairwise (· < ·)

theorem ascendingIds_iff : s.AscendingIds ↔
    (s.sealedFiles.map Prod.fst).Pairwise (· < ·) ∧ ∀ f ∈ s.sealedFiles, f.1 < s.activeId := by
  rw [AscendingIds, files, map_append, map_singleton, pairwise_concat, forall_mem_map]

theorem AscendingIds.le_activeId (h : s.AscendingIds) (hf : f ∈ s.files) : f.1 ≤ s.activeId := by
  rcases mem_concat.1 hf with hf | rfl
  · exact le_of_lt ((ascendingIds_iff.1 h).2 f hf)
  · exact le_refl _

theorem AscendingIds.eq_of_id (h : s.AscendingIds) (hf : f ∈ s.files)
    (hg : g ∈ s.files) (hid : f.1 = g.1) : f = g := by
  have hnodup : (s.files.map Prod.fst).Nodup := h.imp fun hlt => ne_of_lt hlt
  exact inj_on_of_nodup_map hnodup hf hg hid

theorem AscendingIds.fileStep (hids : s.AscendingIds) (h : FileStep s s') : s'.AscendingIds := by
  obtain ⟨hsealed, hactive⟩ := ascendingIds_iff.1 hids
  refine ascendingIds_iff.2 ?_
  cases h with
  | append bytes hsame hid _ =>
    rw [hsame, hid]
    exact ⟨hsealed, hactive⟩
  | reopen hsub hfront hid _ =>
    refine ⟨hids.sublist hsub, fun f hf => ?_⟩
    obtain ⟨file, hfile, k, rfl⟩ := hfront f hf
    have hle : file.1 ≤ s.activeId := hids.le_activeId hfile
    omega
  | drop hsub hid _ =>
    rw [hid]
    exact ⟨hsealed.sublist (hsub.map _), fun f hf => hactive f (hsub.subset hf)⟩

end

/-! ## The invariant -/

/-- The segment ids ascend, and every acknowledged record is found in the file of its segment. -/
structure StoreInv (s : SegmentStore) : Prop where
  ids : s.AscendingIds
  readable : ∀ e ∈ s.acked, ∃ f ∈ s.files, f.1 = e.segment ∧ Readable f.2 e.position e.record

section
variable {s s' : SegmentStore}

section
variable (h : s.StoreInv)
include h

theorem StoreInv.append_active (rest : List UInt8) :
    ({ s with active := s.active ++ rest } : SegmentStore).StoreInv where
  ids := h.ids.fileStep (.append rest rfl rfl rfl)
  readable e he := by
    obtain ⟨f, hf, hid, hread⟩ := h.readable e he
    rcases mem_concat.1 hf with hf | rfl
    · exact ⟨f, mem_append_left _ hf, hid, hread⟩
    · exact ⟨_, mem_concat_self, hid, hread.append rest⟩

theorem StoreInv.commit (hend : ReadToEnd s.active) : (s.commit batch).StoreInv where
  ids := (h.append_active (combinedBuffer batch)).ids
  readable e he := by
    rcases mem_append.1 he with he | he
    · exact (h.append_active (combinedBuffer batch)).readable e he
    obtain ⟨x, hx, rfl⟩ := mem_map.1 he
    have hwhole : WholeRecords s.active := wholeRecords_of_scanFrom (hend.trans (zero_add _).symm)
    obtain ⟨hid, hread⟩ := readable_placed hwhole hx
    exact ⟨_, mem_concat_self, hid.symm, hread⟩

theorem StoreInv.commitFails (hwaits : ∀ w ∈ batch, w.waits = true) : (s.commitFails batch landed).StoreInv := by
  have hplaced : ∀ (pos : Nat) (ws : List CommitWrite), (∀ w ∈ ws, w.waits = true) →
      (placed s.activeId pos ws).filter (¬ ·.1.waits) = [] := by
    intro pos ws hws
    induction ws generalizing pos with
    | nil => rfl
    | cons w ws ih =>
      rw [placed, filter_cons_of_neg (by simp [hws w (.head _)])]
      exact ih _ fun a ha => hws a (.tail _ ha)
  rw [SegmentStore.commitFails, hplaced _ _ hwaits, map_nil, append_nil]
  exact h.append_active _

theorem StoreInv.rotateToNewSegment : s.rotateToNewSegment.StoreInv where
  ids := h.ids.fileStep (fileStep_of_step (a := .rotate) rfl)
  readable e he := by
    obtain ⟨f, hf, hread⟩ := h.readable e he
    exact ⟨f, mem_append_left _ hf, hread⟩

theorem StoreInv.truncateTo (target : Int) : (s.truncateTo target).StoreInv := by
  refine ⟨h.ids.fileStep (fileStep_truncateTo s target), ?_⟩
  rw [SegmentStore.truncateTo]
  split
  case isTrue => exact h.readable
  case isFalse =>
  intro e he
  obtain ⟨he, hsurvives⟩ := mem_filter.1 he
  obtain ⟨f, hf, hid, hlen⟩ := of_decide_eq_true hsurvives
  obtain ⟨file, hfile, k, rfl⟩ := mem_truncatedFiles hf
  obtain ⟨g, hg, hgid, hread⟩ := h.readable e he
  cases h.ids.eq_of_id hfile hg (hid.trans hgid.symm)
  refine ⟨_, mem_append_left _ hf, hid, hread.take ?_⟩
  rw [length_take] at hlen
  omega

theorem StoreInv.deleteSegment (segment : Nat) : (s.deleteSegment segment).StoreInv where
  ids := h.ids.fileStep (.drop filter_sublist rfl rfl)
  readable e he := by
    obtain ⟨he, hkept⟩ := mem_filter.1 he
    obtain ⟨f, hf, hid, hread⟩ := h.readable e he
    refine ⟨f, ?_, hid, hread⟩
    rcases mem_append.1 hf with hf | hf
    · refine mem_append_left _ (mem_filter.2 ⟨hf, ?_⟩)
      rwa [hid]
    · exact mem_append_right _ hf

end

theorem storeInv_init : segmentStore.init.StoreInv where
  ids := pairwise_singleton _ _
  readable _ he := nomatch he

theorem StoreInv.step (h : s.StoreInv) (hok : OnBoundary s a)
    (hs : s.step a = some s') : s'.StoreInv := by
  cases a with
  | commit batch => cases hs; exact h.commit hok
  | commitFails batch landed => cases hs; exact h.commitFails hok
  | rotate => cases hs; exact h.rotateToNewSegment
  | truncate target => cases hs; exact h.truncateTo target
  | delete segment =>
  rw [SegmentStore.step] at hs
  split at hs
  case isTrue => cases hs; exact h.deleteSegment segment
  case isFalse => cases hs

end

/-- Under `OnBoundary` every acknowledged record that was not removed is found by the scan of its
segment. -/
theorem ackedReadable_of_onBoundary {s : SegmentStore} (h : Reaches segmentStore OnBoundary s) :
    s.AckedReadable := by
  have hinv : s.StoreInv := h.invariant storeInv_init fun _ _ _ hi hok hs => hi.step hok hs
  intro e he
  obtain ⟨f, hf, hid, hread⟩ := hinv.readable e he
  exact ⟨f, hf, hid, hread.mem_scanSegment⟩

end SegmentStore

/-! ## A batch behind a torn record -/

namespace TornWriteFixture

open SegmentStore

/-- A write that waits, of a batch at offset 0 with no bytes. -/
def write : CommitWrite where
  record := ⟨.newV2 0 "t" 0 [] 0 0 1, by decide⟩
  waits := true

/-- A write fails after its first byte, and the next batch is written and acknowledged. -/
def tornThenCommit : List Action := [.commitFails [write] 1, .commit [write]]

/-- The same with the torn write at the end of a segment that is not written again. -/
def tornThenRotate : List Action :=
  [.commit [write], .commitFails [write] 1, .rotate, .commit [write]]

end TornWriteFixture

section
open TornWriteFixture SegmentStore

/-- Behind one stray byte an acknowledged record is not found. -/
theorem acked_record_hidden_by_torn_write :
    ¬ ∀ s, Reaches segmentStore Always s → s.AckedReadable := by
  intro h
  obtain ⟨s, hs, hp⟩ := exists_reaches_of_run segmentStore Always tornThenCommit
    (fun s => ¬ s.AckedReadable) (by decide)
  exact hp (h s hs)

theorem ackedReadable_after_rotation :
    ∃ s, Reaches segmentStore OnBoundary s ∧ s.acked.length = 2 ∧ s.AckedReadable :=
  exists_reaches_and segmentStore OnBoundary tornThenRotate (by decide) fun _ hs =>
    ackedReadable_of_onBoundary hs

end

end ChronikStream
