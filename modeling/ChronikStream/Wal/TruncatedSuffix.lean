import ChronikStream.Wal.GroupCommit

/-!
# A truncated suffix stays gone

Once a truncation has returned, none of the writes enqueued before it that reach its target is in
the segment files, under `QuietAtCut`. The code provides neither of its parts: the epoch is bumped
before the pending lock is taken, so a batch drained in between passes the check; and the surgery
relies on the files being in offset order.
-/

namespace ChronikStream

open OffsetRange Machine List

namespace PartitionCommitQueue

/-- No write of an enqueued record that reaches the target of a finished truncation is in the
files. -/
def SuffixGone (s : PartitionCommitQueue) : Prop :=
  ∀ c ∈ s.cuts, ∀ w ∈ s.files, w.id ∈ c.1 → last w < c.2
deriving Decidable

/-- The batch in flight lies below the target when the files are locked, the files are in offset
order when they are cut, and no write fails. -/
def QuietAtCut (s : PartitionCommitQueue) : Action → Prop
  | .lockFiles => ∀ c ∈ s.truncation.cutting, ∀ w ∈ s.inFlight, last w < c.2
  | .cut => Ascending s.files
  | .writeFails => False
  | _ => True

instance : DecidableRel QuietAtCut := fun _ _ => by
  unfold QuietAtCut
  split <;> infer_instance

/-- What a finished truncation forbids in the files it forbids wherever a write can still reach
them. -/
structure CutInvAt (files pending arriving : List PendingWrite) (worker : CommitWorker)
    (epoch : Nat) (truncation : Truncation) (nextId : Nat) (enqueued : List Nat)
    (cuts : List (List Nat × Int)) : Prop where
  /-- An append enqueues at most once. -/
  fresh : ∀ w ∈ arriving, w.id ∉ enqueued ∧ w.id < nextId
  numbered : ∀ i ∈ enqueued, i < nextId
  drainedAt : ∀ batch atEpoch, worker = .drained batch atEpoch → atEpoch ≤ epoch
  seen : ∀ c, c ∈ cuts ∨ c ∈ truncation.cutting → ∀ i ∈ c.1, i ∈ enqueued
  gone : ∀ c ∈ cuts, ∀ w, w ∈ files ∨ w ∈ pending ∨ w ∈ worker.inFlight epoch →
    w.id ∈ c.1 → last w < c.2
  /-- While both locks are held the queue is empty and the batch in flight lies below the target. -/
  quiet : ∀ phase target seen dropped, truncation = .holding phase target seen dropped →
    pending = [] ∧ ∀ w ∈ worker.inFlight epoch, last w < target

abbrev CutInv (s : PartitionCommitQueue) : Prop :=
  CutInvAt s.files s.pending s.arriving s.worker s.truncationEpoch s.truncation s.nextId s.enqueued
    s.cuts

variable {cfg : GroupCommitConfig} {s s' : PartitionCommitQueue} {a : Action}

section
variable (h : CutInv s)
include h

theorem cutInv_cacheAppend (record : WalRecord) (acks : Int) :
    CutInv (s.cacheAppend record acks) := by
  refine { h with fresh := fun w hw => ?_
                  numbered := fun i hi => Nat.lt_succ_of_lt (h.numbered i hi) }
  rcases mem_concat.1 hw with hw | rfl
  · exact ⟨(h.fresh w hw).1, Nat.lt_succ_of_lt (h.fresh w hw).2⟩
  · exact ⟨fun hmem => lt_irrefl _ (h.numbered _ hmem), Nat.lt_succ_self _⟩

theorem cutInv_enqueueWrite (hfree : s.pendingFree)
    (hw : w ∈ s.arriving) : CutInv (s.enqueueWrite cfg w) := by
  have hrest : ∀ x ∈ s.arriving.filter (·.id ≠ w.id), x ∈ s.arriving ∧ x.id ≠ w.id := by
    intro x hx
    simpa using mem_filter.1 hx
  rw [enqueueWrite]
  split
  case isTrue => exact { h with fresh := fun x hx => h.fresh x (hrest x hx).1 }
  case isFalse =>
  refine { h with fresh := fun x hx => ?_, numbered := fun i hi => ?_, seen := fun c hc i hi => ?_,
                  gone := fun c hc x hx hid => ?_, quiet := fun phase t seen dropped ht => ?_ }
  · obtain ⟨hmem, hne⟩ := hrest x hx
    refine ⟨fun hin => ?_, (h.fresh x hmem).2⟩
    rcases mem_concat.1 hin with hin | hin
    · exact (h.fresh x hmem).1 hin
    · exact hne hin
  · rcases mem_concat.1 hi with hi | rfl
    · exact h.numbered i hi
    · exact (h.fresh w hw).2
  · exact mem_append_left _ (h.seen c hc i hi)
  · rcases hx with hx | hx | hx
    · exact h.gone c hc x (.inl hx) hid
    · rcases mem_concat.1 hx with hx | rfl
      · exact h.gone c hc x (.inr (.inl hx)) hid
      · exact absurd (h.seen c (.inl hc) _ hid) (h.fresh _ hw).1
    · exact h.gone c hc x (.inr (.inr hx)) hid
  · rw [pendingFree, ht] at hfree
    cases hfree

theorem cutInv_drainBatch (hfree : s.pendingFree) : CutInv (s.drainBatch cfg) := by
  have hflight : (s.drainBatch cfg).worker.inFlight s.truncationEpoch =
      s.pending.take cfg.maxBatchSize := if_pos rfl
  refine { h with drainedAt := fun batch atEpoch hw => ?_, gone := fun c hc w hw hid => ?_,
                  quiet := fun phase t seen dropped ht => ?_ }
  · cases hw
    exact le_refl _
  · refine h.gone c hc w ?_ hid
    rcases hw with hw | hw | hw
    · exact .inl hw
    · exact .inr (.inl (mem_of_mem_drop hw))
    have hw : w ∈ (s.drainBatch cfg).worker.inFlight s.truncationEpoch := hw
    rw [hflight] at hw
    exact .inr (.inl (mem_of_mem_take hw))
  · have ht : s.truncation = _ := ht
    rw [pendingFree, ht] at hfree
    cases hfree

theorem cutInv_writeBatch (hfree : s.fileFree) (hworker : s.worker = .drained batch atEpoch) :
    CutInv (s.writeBatch batch atEpoch) := by
  have hquiet : ∀ phase target seen dropped, s.truncation ≠ .holding phase target seen dropped := by
    intro phase target seen dropped ht
    rw [fileFree, ht] at hfree
    cases hfree
  rw [writeBatch]
  split
  case isTrue =>
    refine { h with drainedAt := fun _ _ hw => (nomatch hw), gone := fun c hc w hw hid => ?_,
                    quiet := fun phase t seen dropped ht => absurd ht (hquiet phase t seen dropped) }
    rcases hw with hw | hw | hw
    · exact h.gone c hc w (.inl hw) hid
    · exact h.gone c hc w (.inr (.inl hw)) hid
    · cases hw
  case isFalse hsame =>
    have hflight : s.worker.inFlight s.truncationEpoch = batch := by
      rw [hworker]
      exact if_pos (not_not.1 hsame)
    refine { h with drainedAt := fun _ _ hw => (nomatch hw), gone := fun c hc w hw hid => ?_,
                    quiet := fun phase t seen dropped ht => absurd ht (hquiet phase t seen dropped) }
    refine h.gone c hc w ?_ hid
    rcases hw with hw | hw | hw
    · have hw : w ∈ { s with active := s.active ++ batch }.files := hw
      rw [files_append_active] at hw
      rcases mem_append.1 hw with hw | hw
      · exact .inl hw
      · rw [← hflight] at hw
        exact .inr (.inr hw)
    · exact .inr (.inl hw)
    · cases hw

omit h in
/-- A worker that has no batch in flight any more keeps the invariant. -/
theorem CutInvAt.workerIdle {files pending arriving : List PendingWrite} {worker : CommitWorker}
    {epoch nextId : Nat} {truncation : Truncation} {enqueued : List Nat}
    {cuts : List (List Nat × Int)}
    (h : CutInvAt files pending arriving worker epoch truncation nextId enqueued cuts) :
    CutInvAt files pending arriving .idle epoch truncation nextId enqueued cuts where
  __ := h
  drainedAt := fun _ _ hw => (nomatch hw)
  gone := fun c hc w hw hid => h.gone c hc w (hw.imp_right (·.imp_right fun hw => (nomatch hw))) hid
  quiet := fun phase t seen dropped ht =>
    ⟨(h.quiet phase t seen dropped ht).1, fun _ hw => (nomatch hw)⟩

/-- A batch drained before the bump is not written any more. -/
theorem cutInv_bump (target : Int) :
    CutInv { s with truncationEpoch := s.truncationEpoch + 1, truncation := .bumped target } := by
  have hflight : s.worker.inFlight (s.truncationEpoch + 1) = [] := by
    cases hw : s.worker with
    | drained batch atEpoch =>
      have := h.drainedAt batch atEpoch hw
      exact if_neg (by omega)
    | idle | discarding _ | synced _ => rfl
  refine { h with drainedAt := fun batch atEpoch hw => ?_, seen := fun c hc i hi => ?_,
                  gone := fun c hc w hw hid => ?_, quiet := fun _ _ _ _ ht => (nomatch ht) }
  · exact Nat.le_succ_of_le (h.drainedAt batch atEpoch hw)
  · exact h.seen c (hc.imp_right fun hc => (nomatch hc)) i hi
  · refine h.gone c hc w ?_ hid
    rcases hw with hw | hw | hw
    · exact .inl hw
    · exact .inr (.inl hw)
    · rw [hflight] at hw
      cases hw

/-- Both locks are taken over an empty queue and a batch in flight below the target. -/
theorem cutInv_lockBoth (ht : s.truncation = .pendingLocked target seen)
    (hflight : ∀ c ∈ s.truncation.cutting, ∀ w ∈ s.inFlight, last w < c.2) :
    CutInv (s.lockBoth target seen) := by
  refine { h with seen := fun c hc i hi => ?_, gone := fun c hc w hw hid => ?_,
                  quiet := fun phase t seen' dropped hhold => ?_ }
  · refine h.seen c (hc.imp_right fun hc => ?_) i hi
    rw [ht]
    exact hc
  · exact h.gone c hc w (hw.imp_right (·.imp_left fun hw => (nomatch hw))) hid
  · cases hhold
    refine ⟨rfl, hflight (seen, target) ?_⟩
    rw [ht]
    rfl

theorem cutInv_cut (hasc : Ascending s.files)
    (ht : s.truncation = .holding .stored target seen dropped) :
    CutInv
      { (s.cutSegments target).releaseLocks dropped with cuts := s.cuts ++ [(seen, target)] } := by
  obtain ⟨hpending, hflight⟩ := h.quiet _ _ _ _ ht
  have hcut : ∀ w ∈ (s.cutSegments target).files, w ∈ s.files ∧ last w < target := by
    intro w hw
    rw [files_cutSegments] at hw
    exact ⟨(prefix_truncateSegments target s.segments).subset hw,
      last_lt_of_mem_truncateSegments hasc hw⟩
  refine { h with seen := fun c hc i hi => ?_, gone := fun c hc w hw hid => ?_,
                  quiet := fun _ _ _ _ hhold => (nomatch hhold) }
  · have hc : c ∈ s.cuts ++ [(seen, target)] := hc.resolve_right fun hc => nomatch hc
    rcases mem_concat.1 hc with hc | rfl
    · exact h.seen c (.inl hc) i hi
    refine h.seen (seen, target) (.inr ?_) i hi
    rw [ht]
    rfl
  · rcases mem_concat.1 hc with hc | rfl
    · exact h.gone c hc w (hw.imp_left fun hw => (hcut w hw).1) hid
    rcases hw with hw | hw | hw
    · exact (hcut w hw).2
    · have hw : w ∈ s.pending := hw
      rw [hpending] at hw
      cases hw
    · exact hflight w hw

theorem cutInv_step (hok : QuietAtCut s a) (hs : step cfg s a = some s') : CutInv s' := by
  cases stepped_of_step hs with
  | cache record acks => exact cutInv_cacheAppend h record acks
  | enqueue _ free arrived => exact cutInv_enqueueWrite h free arrived
  | drain _ free => exact cutInv_drainBatch h free
  | write worker free => exact cutInv_writeBatch h free worker
  | writeFails => exact hok.elim
  | discard | publish => exact h.workerIdle
  | rotate =>
    rw [CutInv, files_rotateToNewSegment]
    exact h
  | bump target => exact cutInv_bump h target
  | lockPending =>
    refine { h with seen := fun c hc i hi => ?_, quiet := fun _ _ _ _ hhold => (nomatch hhold) }
    rcases hc with hc | hc
    · exact h.seen c (.inl hc) i hi
    · cases hc
      exact hi
  | lockFiles locked => exact cutInv_lockBoth h locked hok
  | clearCache holding | storeMark holding =>
    refine { h with seen := fun c hc i hi => ?_, quiet := fun phase t seen' dropped' hhold => ?_ }
    · refine h.seen c (hc.imp_right fun hc => ?_) i hi
      rw [holding]
      exact hc
    · cases hhold
      exact h.quiet _ _ _ _ holding
  | cut holding => exact cutInv_cut h hok holding
  | syncFails =>
    exact { h with seen := fun c hc => h.seen c (hc.imp_right fun hc => (nomatch hc)),
                   quiet := fun _ _ _ _ hhold => (nomatch hhold) }
  | clearTail | loadMark | serve => exact h

end

/-- In a run that is quiet at its cuts a truncated suffix never comes back. -/
theorem suffixGone_of_quietAtCut {disk : List (List WalRecord)}
    (h : Reaches (groupCommit cfg disk) QuietAtCut s) : s.SuffixGone := by
  have hinv : CutInv s := by
    refine h.invariant ?_ fun s a s' hs hok hstep => cutInv_step hs hok hstep
    exact
      { fresh := fun _ hw => (nomatch hw)
        numbered := fun i hi => by
          cases mem_singleton.1 hi
          exact Nat.one_pos
        drainedAt := fun _ _ hw => (nomatch hw)
        seen := fun c hc => hc.elim (fun hc => (nomatch hc)) fun hc => (nomatch hc)
        gone := fun c hc => (nomatch hc)
        quiet := fun _ _ _ _ ht => (nomatch ht) }
  exact fun c hc w hw => hinv.gone c hc w (.inl hw)

end PartitionCommitQueue

/-! ## Runs with a late drain and with ordered commits -/

section
open GroupCommitFixture PartitionCommitQueue

/-- The worker drains between the bump of the epoch and the pending lock: offset 5 is written behind
the cut at 3. -/
theorem suffix_returns_after_late_drain :
    ¬ ∀ (cfg : GroupCommitConfig) (disk : List (List WalRecord)) (s : PartitionCommitQueue),
      Reaches (groupCommit cfg disk) Always s → s.SuffixGone := by
  intro h
  obtain ⟨s, hs, hback⟩ := exists_reaches_of_run (groupCommit config []) Always
    [.cache (batch 5 5) 1, .enqueue 1, .bump 3, .drain, .lockPending, .lockFiles, .clearCache,
      .storeMark, .cut, .write]
    (fun s => ¬ s.SuffixGone) (by decide)
  exact hback (h config [] s hs)

/-- The surgery takes the second segment for the straddler and keeps offset 5 of the first. -/
example : truncateSegments 4 [[batch 1 1, batch 5 5], [batch 2 2]] =
    [[batch 1 1, batch 5 5], [batch 2 2]] := by decide

/-- Two commits in offset order, the second cut away again by a truncation to offset 3. -/
theorem suffixGone_after_ordered_commits :
    ∃ s, Reaches (groupCommit config []) QuietAtCut s ∧ s.cuts ≠ [] ∧ s.files ≠ [] ∧
      s.SuffixGone := by
  obtain ⟨s, hs, hcut⟩ := exists_reaches_of_run (groupCommit config []) QuietAtCut
    [.cache (batch 0 2) 1, .enqueue 1, .drain, .write, .publish, .rotate, .cache (batch 3 5) 1,
      .enqueue 2, .drain, .write, .publish, .bump 3, .lockPending, .lockFiles, .clearCache,
      .storeMark, .cut]
    (fun s => s.cuts ≠ [] ∧ s.files ≠ []) (by decide)
  exact ⟨s, hs, hcut.1, hcut.2, suffixGone_of_quietAtCut hs⟩

end

end ChronikStream
