import ChronikStream.Wal.GroupCommit

/-!
# The tail cache and the durable mark

What `read_tail` hands out, and every offset below `durable_end_offset`, is in the segment files.
Both rest on the mark never passing the end of the contiguous log, which needs `InOrder`: every
batch continues the log, every truncation cuts it at a record boundary, and no batch or reader
carries a higher mark across it.
-/

namespace ChronikStream

open OffsetRange Machine List
open Bytes (i64Min)

namespace CommitWorker

def batch : CommitWorker → List PendingWrite
  | .drained batch _ => batch
  | _ => []

def unpublished : CommitWorker → List PendingWrite
  | .synced batch => batch
  | _ => []

end CommitWorker

namespace PartitionCommitQueue

/-- The records the partition holds anywhere: in the files, on the way to them or in the tail. -/
def held (s : PartitionCommitQueue) : List WalRecord :=
  (s.files ++ (s.pending ++ (s.worker.batch ++ s.arriving))).map PendingWrite.record ++
    s.tail.records

/-- What a reader gets is in the files, and the files have every offset below the durable end. -/
def TailDurable (start : Int) (s : PartitionCommitQueue) : Prop :=
  (∀ reader ∈ s.readers, ∀ out ∈ s.readTail reader, ∀ r ∈ out, ∃ w ∈ s.files, w.record = r) ∧
    ∀ e ∈ s.durableEndOffset, ∀ o, start ≤ o → o < e → ∃ w ∈ s.files, base w ≤ o ∧ o ≤ last w

/-- Appends of nonempty ranges, each disjoint from every record the partition holds. -/
def DisjointAppends (start : Int) (s : PartitionCommitQueue) : Action → Prop
  | .cache r _ => start ≤ r.baseOffset ∧ r.baseOffset ≤ r.lastOffset ∧ ∀ x ∈ s.held, Apart r x
  | _ => True

/-- Every batch continues the log in the files. Where a truncation sets the mark, the records below
its target reach up to it, and the batch not yet published and the readers lie below it. -/
def InOrder (start : Int) (s : PartitionCommitQueue) : Action → Prop
  | .write => ContiguousFrom (endFrom start s.files) s.inFlight
  | .storeMark => ∀ c ∈ s.truncation.cutting,
      c.2 ≤ endFrom start (s.files.takeWhile (last · < c.2)) ∧
        (∀ w ∈ s.worker.unpublished, last w < c.2) ∧ ∀ r ∈ s.readers, r.durableThrough < c.2
  | _ => True

instance (start : Int) : DecidableRel (DisjointAppends start) := fun _ _ => by
  unfold DisjointAppends
  split <;> infer_instance

instance (start : Int) : DecidableRel (InOrder start) := fun _ _ => by
  unfold InOrder
  split <;> infer_instance

/-! ## The invariant -/

/-- A truncation that has stored its mark has fixed where the log will end. -/
structure MarkInv (start : Int) (files : List PendingWrite) (worker : CommitWorker)
    (truncation : Truncation) (committedThrough : Int) (readers : List TailRead) : Prop where
  log : ContiguousFrom start files
  mark : committedThrough < endFrom start files
  written : ∀ w ∈ worker.unpublished, last w < endFrom start files
  loaded : ∀ r ∈ readers, r.durableThrough ≤ committedThrough
  cutting : ∀ target seen dropped, truncation = .holding .stored target seen dropped →
    committedThrough < endFrom start (files.takeWhile (last · < target)) ∧
      ∀ w ∈ worker.unpublished,
        last w < endFrom start (files.takeWhile (last · < target))

/-- The part of the invariant about the records the partition holds. -/
structure RangeInv (start : Int) (held : List WalRecord) : Prop where
  apart : ∀ a ∈ held, ∀ b ∈ held, a = b ∨ Apart a b
  range : ∀ r ∈ held, start ≤ r.baseOffset ∧ r.baseOffset ≤ r.lastOffset

theorem RangeInv.mono {start : Int} {held held' : List WalRecord} (h : RangeInv start held)
    (hsub : held' ⊆ held) : RangeInv start held' where
  apart a ha b hb := h.apart a (hsub ha) b (hsub hb)
  range r hr := h.range r (hsub hr)

variable {cfg : GroupCommitConfig} {s s' : PartitionCommitQueue} {a : Action} {start : Int}

abbrev DurInv (start : Int) (s : PartitionCommitQueue) : Prop :=
  MarkInv start s.files s.worker s.truncation s.committedThrough s.readers ∧ RangeInv start s.held

theorem DurInv.tailDurable (h : DurInv start s) : s.TailDurable start := by
  obtain ⟨hm, hr⟩ := h
  refine ⟨fun reader hreader out hout r hrout => ?_, fun e he o hlo hhi => ?_⟩
  · obtain ⟨htail, hmark⟩ := TailCache.mem_readFrom hout hrout
    have hheld : r ∈ s.held := mem_append_right _ htail
    obtain ⟨hlo, hne⟩ := hr.range r hheld
    have hloaded := hm.loaded reader hreader
    have hend := hm.mark
    obtain ⟨w, hw, hbase, hlast⟩ := hm.log.exists_mem hlo (by omega)
    have hwheld : w.record ∈ s.held := mem_append_left _ (mem_map_of_mem (mem_append_left _ hw))
    refine ⟨w, hw, ?_⟩
    rcases hr.apart w.record hwheld r hheld with heq | hlt | hlt
    · exact heq
    · have hlt : last w < r.baseOffset := hlt
      omega
    · have hlt : r.lastOffset < base w := hlt
      omega
  · refine hm.log.exists_mem hlo ?_
    have hend := hm.mark
    rw [durableEndOffset] at he
    split at he <;> cases he
    omega

/-! ## The records a step holds -/

def Holds (s : PartitionCommitQueue) (w : PendingWrite) : Prop :=
  w ∈ s.files ∨ w ∈ s.pending ∨ w ∈ s.worker.batch ∨ w ∈ s.arriving

theorem held_subset (hw : ∀ w, s'.Holds w → s.Holds w)
    (htail : s'.tail.records ⊆ s.tail.records) : s'.held ⊆ s.held := by
  refine append_subset.2 ⟨fun r hr => ?_, fun r hr => mem_append_right _ (htail hr)⟩
  obtain ⟨w, hmem, rfl⟩ := mem_map.1 hr
  refine mem_append_left _ (mem_map_of_mem ?_)
  have hholds : s'.Holds w := by
    simpa only [Holds, mem_append] using hmem
  simpa only [Holds, mem_append] using hw w hholds

theorem holds_of_noBatch {w : PendingWrite}
    (h : w ∈ s.files ∨ w ∈ s.pending ∨ w ∈ ([] : List PendingWrite) ∨ w ∈ s.arriving) : s.Holds w :=
  h.imp_right (·.imp_right fun hw => .inr (hw.resolve_left fun hw => nomatch hw))

theorem held_step (hs : step cfg s a = some s') (hcache : ∀ r acks, a ≠ .cache r acks) :
    s'.held ⊆ s.held := by
  cases stepped_of_step hs with
  | cache record acks => exact absurd rfl (hcache record acks)
  | enqueue id free arrived =>
    rw [enqueueWrite]
    split
    case isTrue =>
      refine held_subset (fun x hx => ?_) (List.Subset.refl _)
      exact hx.imp_right (·.imp_right (·.imp_right fun hx => (mem_filter.1 hx).1))
    case isFalse =>
    refine held_subset (fun x hx => ?_) (List.Subset.refl _)
    rcases hx with hx | hx | hx | hx
    · exact .inl hx
    · rcases mem_concat.1 hx with hx | rfl
      · exact .inr (.inl hx)
      · exact .inr (.inr (.inr arrived))
    · exact .inr (.inr (.inl hx))
    · exact .inr (.inr (.inr (mem_filter.1 hx).1))
  | drain =>
    refine held_subset (fun x hx => ?_) (List.Subset.refl _)
    rcases hx with hx | hx | hx | hx
    · exact .inl hx
    · exact .inr (.inl (mem_of_mem_drop hx))
    · exact .inr (.inl (mem_of_mem_take hx))
    · exact .inr (.inr (.inr hx))
  | @write batch _ worker =>
    rw [writeBatch]
    split
    case isTrue => exact held_subset (fun _ hx => holds_of_noBatch hx) (List.Subset.refl _)
    case isFalse =>
    refine held_subset (fun x hx => ?_) (List.Subset.refl _)
    rcases hx with hx | hx | hx | hx
    · have hx : x ∈ { s with active := s.active ++ batch }.files := hx
      rw [files_append_active] at hx
      rcases mem_append.1 hx with hx | hx
      · exact .inl hx
      refine .inr (.inr (.inl ?_))
      rw [worker]
      exact hx
    · exact .inr (.inl hx)
    · cases hx
    · exact .inr (.inr (.inr hx))
  | writeFails | publish => exact held_subset (fun _ hx => holds_of_noBatch hx) (List.Subset.refl _)
  | discard => exact held_subset (fun _ hx => holds_of_noBatch hx) (nil_subset _)
  | clearTail | clearCache => exact held_subset (fun _ hx => hx) (nil_subset _)
  | rotate =>
    refine held_subset (fun x hx => hx.imp_left fun hx => ?_) (List.Subset.refl _)
    rwa [files_rotateToNewSegment] at hx
  | lockFiles =>
    exact held_subset (fun x hx => hx.imp_right (·.imp_left fun hx => (nomatch hx)))
      (List.Subset.refl _)
  | @cut target =>
    refine held_subset (fun x hx => hx.imp_left fun hx => ?_) (List.Subset.refl _)
    have hx : x ∈ (s.cutSegments target).files := hx
    rw [files_cutSegments] at hx
    exact (prefix_truncateSegments target s.segments).subset hx
  | bump | lockPending | storeMark | syncFails | loadMark | serve => exact List.Subset.refl _

theorem rangeInv_step (h : RangeInv start s.held) (hok : DisjointAppends start s a)
    (hs : step cfg s a = some s') : RangeInv start s'.held := by
  by_cases hcache : ∃ r acks, a = .cache r acks
  · obtain ⟨r, acks, rfl⟩ := hcache
    cases hs
    obtain ⟨hlo, hne, hapart⟩ := hok
    have hmem : ∀ x ∈ (s.cacheAppend r acks).held, x = r ∨ x ∈ s.held := by
      intro x hx
      rcases mem_append.1 hx with hx | hx
      · obtain ⟨w, hw, rfl⟩ := mem_map.1 hx
        have hw : w ∈ s.files ++ (s.pending ++ (s.worker.batch ++
            (s.arriving ++ [⟨s.nextId, r, acks ≠ 0⟩]))) := hw
        rw [← append_assoc, ← append_assoc, ← append_assoc, mem_append] at hw
        rcases hw with hw | hw
        · rw [append_assoc, append_assoc] at hw
          exact .inr (mem_append_left _ (mem_map_of_mem hw))
        · cases mem_singleton.1 hw
          exact .inl rfl
      · exact (TailCache.mem_push hx).imp_right (mem_append_right _)
    refine ⟨fun x hx y hy => ?_, fun x hx => ?_⟩
    · rcases hmem x hx with hxr | hxs
      · rcases hmem y hy with hyr | hys
        · exact .inl (hxr.trans hyr.symm)
        · exact .inr (hxr ▸ hapart y hys)
      · rcases hmem y hy with hyr | hys
        · exact .inr (hyr ▸ (hapart x hxs).symm)
        · exact h.apart x hxs y hys
    · rcases hmem x hx with rfl | hx
      · exact ⟨hlo, hne⟩
      · exact h.range x hx
  · exact h.mono (held_step hs fun r acks ha => hcache ⟨r, acks, ha⟩)

/-! ## The mark after a step -/

/-- A worker without an unpublished batch keeps the part of the invariant about the mark. -/
theorem MarkInv.noUnpublished {files : List PendingWrite} {worker worker' : CommitWorker}
    {truncation : Truncation} {mark : Int} {readers : List TailRead}
    (h : MarkInv start files worker truncation mark readers) (hw : worker'.unpublished = []) :
    MarkInv start files worker' truncation mark readers :=
  { h with
    written := fun w hmem => by
      rw [hw] at hmem
      cases hmem
    cutting := fun target seen dropped ht => ⟨(h.cutting target seen dropped ht).1, fun w hmem => by
      rw [hw] at hmem
      cases hmem⟩ }

/-- A truncation that has not stored its mark asks nothing of the files. -/
theorem MarkInv.notStored {files : List PendingWrite} {worker : CommitWorker}
    {truncation truncation' : Truncation} {mark : Int} {readers : List TailRead}
    (h : MarkInv start files worker truncation mark readers)
    (ht : ∀ target seen dropped, truncation' ≠ .holding .stored target seen dropped) :
    MarkInv start files worker truncation' mark readers :=
  { h with cutting := fun target seen dropped hhold => absurd hhold (ht target seen dropped) }

section
variable (h : MarkInv start s.files s.worker s.truncation s.committedThrough s.readers)
include h

theorem markInv_writeBatch {batch : List PendingWrite} {atEpoch : Nat} (hworker : s.worker = .drained batch atEpoch)
    (hfree : s.fileFree) (hok : ContiguousFrom (endFrom start s.files) s.inFlight) :
    MarkInv start (s.writeBatch batch atEpoch).files (s.writeBatch batch atEpoch).worker
      (s.writeBatch batch atEpoch).truncation (s.writeBatch batch atEpoch).committedThrough
      (s.writeBatch batch atEpoch).readers := by
  rw [writeBatch]
  split
  case isTrue => exact h.noUnpublished rfl
  case isFalse hsame =>
  have hflight : s.inFlight = batch := by
    rw [inFlight, hworker]
    exact if_pos (not_not.1 hsame)
  rw [hflight] at hok
  have hlog : ContiguousFrom start (s.files ++ batch) := contiguousFrom_append.2 ⟨h.log, hok⟩
  have hgrow : endFrom start s.files ≤
      endFrom start (s.files ++ batch) := by
    rw [endFrom_append]
    exact hok.le_endFrom
  have hfiles := files_append_active s batch
  have hmark := h.mark
  exact
    { log := hfiles ▸ hlog
      mark := by
        show s.committedThrough <
          endFrom start { s with active := s.active ++ batch }.files
        rw [hfiles]
        omega
      written := fun w hw => by
        show last w < endFrom start { s with active := s.active ++ batch }.files
        rw [hfiles]
        exact (hlog.bounds (mem_append_right _ hw)).2.2
      loaded := h.loaded
      cutting := fun target seen dropped ht => by
        rw [fileFree, ht] at hfree
        cases hfree }

theorem markInv_publishBatch {batch : List PendingWrite} (hworker : s.worker = .synced batch) :
    MarkInv start s.files .idle s.truncation (s.publishBatch batch).committedThrough s.readers := by
  have hmark : (s.publishBatch batch).committedThrough = s.committedThrough ∨
      ∃ w ∈ batch, (s.publishBatch batch).committedThrough = max s.committedThrough (last w) := by
    cases hmax : (batch.map fun w => w.record.lastOffset).max? with
    | none => exact .inl (by simp [publishBatch, hmax])
    | some m =>
      obtain ⟨w, hw, hm⟩ := mem_map.1 (max?_mem hmax)
      exact .inr ⟨w, hw, by simp [publishBatch, hmax, ← hm]; rfl⟩
  have hbelow : ∀ e, s.committedThrough < e → (∀ w ∈ batch, last w < e) →
      (s.publishBatch batch).committedThrough < e := by
    intro e hold hbatch
    rcases hmark with heq | ⟨w, hw, heq⟩
    · omega
    · have := hbatch w hw
      omega
  have hraised : s.committedThrough ≤ (s.publishBatch batch).committedThrough := by
    rcases hmark with heq | ⟨w, -, heq⟩ <;> omega
  rw [hworker] at h
  exact
    { log := h.log
      mark := hbelow _ h.mark h.written
      written := fun w hw => (nomatch hw)
      loaded := fun r hr => (h.loaded r hr).trans hraised
      cutting := fun target seen dropped ht =>
        ⟨hbelow _ (h.cutting target seen dropped ht).1 (h.cutting target seen dropped ht).2,
          fun w hw => (nomatch hw)⟩ }

end

section
variable (h : MarkInv start s.files s.worker s.truncation s.committedThrough s.readers)
include h

theorem markInv_storeMark (h0 : i64Min < start) {target : Int}
    {seen : List Nat} {dropped : List PendingWrite}
    (hreach : target ≤ endFrom start (s.files.takeWhile (last · < target)))
    (hunpublished : ∀ w ∈ s.worker.unpublished, last w < target)
    (hreaders : ∀ r ∈ s.readers, r.durableThrough < target) :
    MarkInv start s.files s.worker (.holding .stored target seen dropped)
      (s.storeMark target seen dropped).committedThrough s.readers := by
  have hmark : (s.storeMark target seen dropped).committedThrough = max i64Min (target - 1) := rfl
  have hkept := (h.log.takeWhile (last · < target)).le_endFrom
  have hle := h.log.endFrom_takeWhile_le (last · < target)
  refine { h with mark := ?_, loaded := fun r hr => ?_, cutting := fun t seen' dropped' ht => ?_ }
  · omega
  · have := hreaders r hr
    omega
  · cases ht
    exact ⟨by omega, fun w hw => (hunpublished w hw).trans_le hreach⟩

theorem markInv_cut {target : Int} {seen : List Nat} {dropped : List PendingWrite}
    (ht : s.truncation = .holding .stored target seen dropped) :
    MarkInv start (s.cutSegments target).files s.worker .idle s.committedThrough s.readers := by
  obtain ⟨hmark, hwritten⟩ := h.cutting target seen dropped ht
  rw [files_cutSegments, flatten_truncateSegments target h.log]
  exact
    { log := h.log.takeWhile _
      mark := hmark
      written := hwritten
      loaded := h.loaded
      cutting := fun _ _ _ hhold => (nomatch hhold) }

theorem markInv_step (h0 : i64Min < start) (hok : InOrder start s a) (hs : step cfg s a = some s') :
    MarkInv start s'.files s'.worker s'.truncation s'.committedThrough s'.readers := by
  cases stepped_of_step hs with
  | cache | clearTail => exact h
  | enqueue =>
    rw [enqueueWrite]
    split <;> exact h
  | drain | writeFails | discard => exact h.noUnpublished rfl
  | write worker free => exact markInv_writeBatch h worker free hok
  | publish worker => exact markInv_publishBatch h worker
  | rotate =>
    rw [files_rotateToNewSegment]
    exact h
  | bump | lockPending | lockFiles | clearCache | syncFails =>
    exact h.notStored fun _ _ _ ht => nomatch ht
  | @storeMark target seen _ holding =>
    obtain ⟨hreach, hunpublished, hreaders⟩ := hok (seen, target) (by rw [holding]; rfl)
    exact markInv_storeMark h h0 hreach hunpublished hreaders
  | cut holding => exact markInv_cut h holding
  | loadMark =>
    exact { h with loaded := forall_mem_concat.2 ⟨h.loaded, (le_refl _)⟩ }
  | serve => exact { h with loaded := fun r hr => h.loaded r (mem_of_mem_eraseIdx hr) }

end

theorem durInv_new {disk : List (List WalRecord)} (h0 : i64Min < start)
    (hdisk : ContiguousFrom start disk.flatten) : DurInv start (.new cfg disk) := by
  have hfiles : (new cfg disk).files = disk.flatten.map (⟨0, ·, false⟩) := by
    simp [files, segments, new]
  have hlog : ContiguousFrom start (new cfg disk).files := by
    rw [hfiles]
    exact (contiguousFrom_map (f := (PendingWrite.mk 0 · false)) (fun _ => rfl) fun _ => rfl).2 hdisk
  have hheld : (new cfg disk).held = disk.flatten := by
    have hrest : (new cfg disk).held = (new cfg disk).files.map PendingWrite.record := by
      simp [held, new, CommitWorker.batch, TailCache.new]
    rw [hrest, hfiles, map_map]
    exact map_id _
  refine ⟨?_, ?_⟩
  · refine
      { log := hlog
        mark := h0.trans_le hlog.le_endFrom
        written := forall_mem_nil _
        loaded := forall_mem_nil _
        cutting := fun _ _ _ ht => ?_ }
    cases ht
  · rw [hheld]
    exact ⟨fun a ha b hb => hdisk.ascending.eq_or_apart ha hb,
      fun r hr => ⟨(hdisk.bounds hr).1, (hdisk.bounds hr).2.1⟩⟩

/-- Over disjoint ranges written in order, every read of the tail is durable and the durable end
never passes the log. -/
theorem tailDurable_of_inOrder {disk : List (List WalRecord)} (h0 : i64Min < start)
    (hdisk : ContiguousFrom start disk.flatten)
    (h : Reaches (groupCommit cfg disk) (fun s a => DisjointAppends start s a ∧ InOrder start s a) s) :
    s.TailDurable start := by
  have hinv : DurInv start s :=
    h.invariant (durInv_new h0 hdisk) fun s a s' hs hok hstep =>
      ⟨markInv_step hs.1 h0 hok.2 hstep, rangeInv_step hs.2 hok.1 hstep⟩
  exact hinv.tailDurable

end PartitionCommitQueue

/-! ## Runs with appends out of order and in order -/

section
open GroupCommitFixture PartitionCommitQueue

instance (start : Int) : DecidableRel fun (s : PartitionCommitQueue) (a : Action) =>
    DisjointAppends start s a ∧ InOrder start s a :=
  fun _ _ => inferInstanceAs (Decidable (_ ∧ _))

/-- 10 to 19 is committed first, so a read from 0 returns the batch at 0 to 9 before it is written.
-/
theorem tail_serves_queued_record :
    ¬ ∀ (cfg : GroupCommitConfig) (s : PartitionCommitQueue),
      Reaches (groupCommit cfg []) (DisjointAppends 0) s → s.TailDurable 0 := by
  intro h
  obtain ⟨s, hs, reader, hreader, out, hout, r, hr, hmissing⟩ := exists_reaches_of_run (groupCommit config []) (DisjointAppends 0)
    [.cache (batch 10 19) 1, .enqueue 1, .drain, .write, .publish, .cache (batch 0 9) 1,
      .loadMark 0 100]
    (fun s => ∃ reader ∈ s.readers, ∃ out ∈ s.readTail reader, ∃ r ∈ out,
      ¬ ∃ w ∈ s.files, w.record = r) (by decide)
  exact hmissing ((h config s hs).1 reader hreader out hout r hr)

/-- A truncation to offset 5 of an empty log sets the durable end to 5. -/
example : ((groupCommit config []).runWith (DisjointAppends 0) (groupCommit config []).init
    [.bump 5, .lockPending, .lockFiles, .clearCache, .storeMark, .cut]).any
      (fun s => s.files = [] ∧ s.durableEndOffset = some 5) = true := by decide

/-- Two batches committed in order and a truncation at the boundary between them, with a reader that
gets the first batch. -/
theorem tailDurable_after_ordered_commits :
    ∃ s, Reaches (groupCommit config []) (fun s a => DisjointAppends 0 s a ∧ InOrder 0 s a) s ∧
      (∃ reader ∈ s.readers, s.readTail reader = some [batch 3 4]) ∧
      s.durableEndOffset = some 5 ∧ s.TailDurable 0 := by
  obtain ⟨s, hs, hserve, hend⟩ := exists_reaches_of_run (groupCommit config [])
    (fun s a => DisjointAppends 0 s a ∧ InOrder 0 s a)
    [.cache (batch 0 2) 1, .enqueue 1, .drain, .write, .publish, .cache (batch 3 5) 1, .enqueue 2,
      .drain, .write, .publish, .bump 3, .lockPending, .lockFiles, .clearCache, .storeMark, .cut,
      .cache (batch 3 4) 1, .enqueue 3, .drain, .write, .publish, .cache (batch 5 9) 1,
      .loadMark 3 100]
    (fun s => (∃ reader ∈ s.readers, s.readTail reader = some [batch 3 4]) ∧
      s.durableEndOffset = some 5) (by decide)
  have hdisk : ContiguousFrom 0 ([] : List (List WalRecord)).flatten := trivial
  exact ⟨s, hs, hserve, hend, tailDurable_of_inOrder (by decide) hdisk hs⟩

end

end ChronikStream
