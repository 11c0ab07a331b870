import ChronikStream.Lib.OffsetRange
import ChronikStream.Replication.LeaderEpoch
import Mathlib.Data.List.Infix

/-!
# Replica logs and the history their batches replay to

`ReplicaLog` is a list of batches, none empty, with contiguous offsets and epochs that never
decrease. `LeaderEpochStore.replay` is the history a replica builds from it, and the queries of a
replayed history are read back at the log.
-/

namespace ChronikStream

open List OffsetRange

variable {α : Type*}

/-- A record batch: the base offset and leader epoch of its header, and its records. -/
structure Batch (α : Type*) where
  baseOffset : Int
  epoch : Int
  records : List α
  nonempty : records ≠ []
  deriving DecidableEq

/-- A record as the log holds it: its offset, the epoch its leader wrote it under, its content. -/
structure LogRecord (α : Type*) where
  offset : Int
  epoch : Int
  payload : α
  deriving DecidableEq

namespace Batch

def single (baseOffset epoch : Int) (record : α) : Batch α :=
  ⟨baseOffset, epoch, [record], cons_ne_nil _ _⟩

def lastOffset (b : Batch α) : Int := b.baseOffset + b.records.length - 1

def logRecords (b : Batch α) : List (LogRecord α) :=
  b.records.mapIdx fun i p => ⟨b.baseOffset + i, b.epoch, p⟩

theorem length_pos (b : Batch α) : 0 < b.records.length :=
  length_pos_iff.2 b.nonempty

theorem baseOffset_le_lastOffset (b : Batch α) : b.baseOffset ≤ b.lastOffset := by
  have := b.length_pos
  unfold lastOffset
  omega

@[simp] theorem length_logRecords (b : Batch α) : b.logRecords.length = b.records.length := by
  simp [logRecords]

theorem mem_logRecords {b : Batch α} (h : r ∈ b.logRecords) :
    r.epoch = b.epoch ∧ b.baseOffset ≤ r.offset ∧ r.offset ≤ b.lastOffset := by
  obtain ⟨i, hi, rfl⟩ := mem_mapIdx.1 h
  refine ⟨rfl, ?_, ?_⟩ <;> dsimp only [lastOffset] <;> omega

theorem exists_offset {b : Batch α} (hbase : b.baseOffset ≤ o) (hlast : o ≤ b.lastOffset) :
    ∃ r ∈ b.logRecords, r.offset = o := by
  unfold lastOffset at hlast
  refine ⟨_, mem_mapIdx.2 ⟨(o - b.baseOffset).toNat, by omega, rfl⟩, ?_⟩
  dsimp only
  omega

theorem exists_last (b : Batch α) :
    ∃ r ∈ b.logRecords, r.offset = b.lastOffset ∧ r.epoch = b.epoch := by
  obtain ⟨r, hr, ho⟩ := exists_offset b.baseOffset_le_lastOffset (le_refl _)
  exact ⟨r, hr, ho, (mem_logRecords hr).1⟩

end Batch

instance : OffsetRange (Batch α) where
  base := Batch.baseOffset
  last := Batch.lastOffset

def logRecords (bs : List (Batch α)) : List (LogRecord α) :=
  bs.flatMap Batch.logRecords

@[simp] theorem logRecords_nil : logRecords ([] : List (Batch α)) = [] := rfl

@[simp] theorem logRecords_cons (b : Batch α) (bs : List (Batch α)) :
    logRecords (b :: bs) = b.logRecords ++ logRecords bs := rfl

@[simp] theorem logRecords_append (bs cs : List (Batch α)) :
    logRecords (bs ++ cs) = logRecords bs ++ logRecords cs :=
  flatMap_append

/-! ## Contiguous offsets -/

/-- The batches follow each other without a gap, the first one at `o`. -/
abbrev Contiguous (o : Int) (bs : List (Batch α)) : Prop := ContiguousFrom o bs

theorem contiguous_append :
    Contiguous o (bs ++ cs) ↔ Contiguous o bs ∧ Contiguous (endFrom o bs) cs :=
  contiguousFrom_append

theorem contiguous_singleton (b : Batch α) : Contiguous b.baseOffset [b] :=
  ⟨rfl, b.baseOffset_le_lastOffset, trivial⟩

/-- The offset after a log that ends with a batch. -/
theorem endFrom_concat (o : Int) (bs : List (Batch α)) (b : Batch α) :
    endFrom o (bs ++ [b]) = b.lastOffset + 1 :=
  endFrom_append

theorem Contiguous.endFrom_eq (h : Contiguous o bs) :
    endFrom o bs = o + (logRecords bs).length := by
  induction bs generalizing o with
  | nil => simp [endFrom]
  | cons b bs ih =>
    obtain ⟨rfl, -, h⟩ := h
    rw [endFrom, ih h, logRecords_cons, length_append, Batch.length_logRecords]
    simp only [OffsetRange.last, OffsetRange.base, Batch.lastOffset]
    push_cast
    omega

theorem Contiguous.offset_eq {o : Int} {bs : List (Batch α)} (h : Contiguous o bs) {i : Nat}
    (hr : (logRecords bs)[i]? = some r) : r.offset = o + i := by
  induction bs generalizing o i with
  | nil => simp at hr
  | cons b bs ih =>
    obtain ⟨rfl, -, h⟩ := h
    rw [logRecords_cons, getElem?_append] at hr
    split at hr
    · simp only [Batch.logRecords, getElem?_mapIdx, Option.map_eq_some_iff] at hr
      obtain ⟨p, -, rfl⟩ := hr
      rfl
    · next hi =>
      rw [Batch.length_logRecords] at hi hr
      rw [ih h hr]
      simp only [OffsetRange.last, OffsetRange.base, Batch.lastOffset]
      omega

theorem Contiguous.offset_lt_endFrom {o : Int} {bs : List (Batch α)} (h : Contiguous o bs)
    {r : LogRecord α} (hr : r ∈ logRecords bs) : r.offset < endFrom o bs := by
  obtain ⟨i, hi, rfl⟩ := mem_iff_getElem.1 hr
  rw [h.offset_eq (getElem?_eq_getElem hi), h.endFrom_eq]
  omega

theorem Contiguous.le_baseOffset (h : Contiguous o bs) : ∀ b ∈ bs, o ≤ b.baseOffset :=
  fun _ hb => (h.bounds hb).1

theorem Contiguous.lastOffset_lt_endFrom (h : Contiguous o bs) :
    ∀ b ∈ bs, b.lastOffset < endFrom o bs :=
  fun _ hb => (h.bounds hb).2.2

theorem Contiguous.baseOffset_eq
    (h : Contiguous o (pre ++ b :: post)) : b.baseOffset = endFrom o pre :=
  (contiguous_append.1 h).2.1

/-! ## Replica logs -/

/-- A replica's log from the offset `start` on: contiguous offsets, leader epochs that never
decrease. -/
structure ReplicaLog (α : Type*) (start : Nat) where
  batches : List (Batch α)
  contiguous : Contiguous start batches
  monotone : batches.Pairwise (·.epoch ≤ ·.epoch)

namespace ReplicaLog

variable {start : Nat}

def logEnd (log : ReplicaLog α start) : Int := endFrom start log.batches

def records (log : ReplicaLog α start) : List (LogRecord α) := logRecords log.batches

/-- An epoch occurs in a log when a batch of the log was written under it. -/
def HasEpoch (log : ReplicaLog α start) (e : Int) : Prop := ∃ b ∈ log.batches, b.epoch = e

end ReplicaLog

/-- The history a node holds after it observed the batches of a log, one after another. -/
def LeaderEpochStore.replay (topic : String) (part : Int) (bs : List (Batch α)) :
    LeaderEpochStore :=
  bs.foldl (fun s b => s.observeAppend topic part b.epoch b.baseOffset) .empty

/-- The history of one partition, replayed: the batches' epochs are assigned in log order. -/
def LeaderEpochCache.replay (bs : List (Batch α)) : LeaderEpochCache :=
  bs.foldl (fun c b => c.assign b.epoch b.baseOffset) .empty

theorem LeaderEpochStore.historyOf_replay (topic : String) (part : Int) (bs : List (Batch α)) :
    (LeaderEpochStore.replay topic part bs).historyOf topic part = LeaderEpochCache.replay bs := by
  suffices h : ∀ s : LeaderEpochStore,
      (bs.foldl (fun s b => s.observeAppend topic part b.epoch b.baseOffset) s).historyOf topic part
        = bs.foldl (fun c b => c.assign b.epoch b.baseOffset) (s.historyOf topic part) from h _
  induction bs with
  | nil => intro s; rfl
  | cons b bs ih => intro s; rw [foldl_cons, ih, historyOf_observeAppend, foldl_cons]

/-! ## What a replayed history answers -/

namespace LeaderEpochCache

theorem replay_concat (bs : List (Batch α)) (b : Batch α) :
    replay (bs ++ [b]) = (replay bs).assign b.epoch b.baseOffset := by
  simp [replay, foldl_append]

theorem mem_replay (hx : x ∈ (replay bs).entries) :
    ∃ b ∈ bs, b.epoch = x.epoch ∧ b.baseOffset = x.startOffset ∧ 0 ≤ b.epoch := by
  induction bs using List.reverseRecOn with
  | nil => simp [replay] at hx
  | append_singleton bs b ih =>
    rw [replay_concat, assign_entries] at hx
    split at hx
    · obtain ⟨c, hc, h⟩ := ih hx
      exact ⟨c, by simp [hc], h⟩
    next hnew =>
    simp only [mem_append, mem_filter, mem_singleton] at hx
    rcases hx with ⟨hx, -⟩ | rfl
    · obtain ⟨c, hc, h⟩ := ih hx
      exact ⟨c, by simp [hc], h⟩
    · exact ⟨b, by simp, rfl, rfl, by omega⟩

/-- One more batch adds an entry exactly when it is stamped and newer than the latest, and
supersedes none, since earlier batches start below it. -/
theorem replay_concat_entries {o : Int} {bs : List (Batch α)} (hc : Contiguous o (bs ++ [b])) :
    (replay (bs ++ [b])).entries =
      if b.epoch < 0 ∨ ∃ last ∈ (replay bs).entries.getLast?, b.epoch ≤ last.epoch then
        (replay bs).entries
      else (replay bs).entries ++ [⟨b.epoch, b.baseOffset⟩] := by
  rw [replay_concat, assign_entries]
  congr 2
  rw [filter_eq_self]
  intro x hx
  obtain ⟨c, hmem, -, hs, -⟩ := mem_replay hx
  have hlt := (contiguous_append.1 hc).1.lastOffset_lt_endFrom c hmem
  have := c.baseOffset_le_lastOffset
  have := hc.baseOffset_eq
  rw [decide_eq_true_iff]
  omega

variable {o : Int} {bs : List (Batch α)} (hc : Contiguous o bs) (hm : bs.Pairwise (·.epoch ≤ ·.epoch))
include hc hm

/-- The latest entry has the epoch of the last batch; there is none while that is unstamped. -/
theorem latestEpoch_replay :
    (replay bs).latestEpoch = (bs.getLast?.map (·.epoch)).filter (0 ≤ ·) := by
  induction bs using List.reverseRecOn with
  | nil => rfl
  | append_singleton bs b ih =>
    have hc' := (contiguous_append.1 hc).1
    obtain ⟨hm', hle⟩ := pairwise_concat.1 hm
    specialize ih hc' hm'
    unfold latestEpoch at ih ⊢
    rw [replay_concat_entries hc]
    by_cases hneg : b.epoch < 0
    · -- an unstamped batch follows unstamped batches only
      rw [if_pos (.inl hneg), ih]
      cases hl : bs.getLast? with
      | none => simp [Option.filter, show ¬ 0 ≤ b.epoch by omega]
      | some c =>
        have := hle c (mem_of_getLast? hl)
        simp [Option.filter, show ¬ 0 ≤ b.epoch by omega, show ¬ 0 ≤ c.epoch by omega]
    · by_cases hold : ∃ last ∈ (replay bs).entries.getLast?, b.epoch ≤ last.epoch
      · rw [if_pos (.inr hold)]
        obtain ⟨last, hlast, hbl⟩ := hold
        obtain ⟨c, hcm, hce, -, -⟩ := mem_replay (mem_of_getLast? hlast)
        have := hle c hcm
        rw [hlast]
        simp [Option.filter, show last.epoch = b.epoch by omega, show 0 ≤ b.epoch by omega]
      · rw [if_neg (by rw [not_or]; exact ⟨hneg, hold⟩)]
        simp [Option.filter, show 0 ≤ b.epoch by omega]

/-- The first entry newer than a stamped epoch is the first batch newer than it. -/
theorem find?_replay_newer {e : Int} (he : 0 ≤ e) :
    (replay bs).entries.find? (e < ·.epoch) =
      (bs.find? (e < ·.epoch)).map fun b => ⟨b.epoch, b.baseOffset⟩ := by
  induction bs using List.reverseRecOn with
  | nil => rfl
  | append_singleton bs b ih =>
    have hc' := (contiguous_append.1 hc).1
    have hm' := (pairwise_concat.1 hm).1
    specialize ih hc' hm'
    rw [replay_concat_entries hc, find?_append]
    split
    · next hold =>
      -- no entry is added: the batch is not newer than `e` unless an earlier one already is
      rw [ih]
      cases hf : bs.find? (e < ·.epoch) with
      | some c => rfl
      | none =>
      have hbe : b.epoch ≤ e := by
        rcases hold with hneg | ⟨last, hlast, hbl⟩
        · omega
        obtain ⟨c, hcm, hce, -, -⟩ := mem_replay (mem_of_getLast? hlast)
        have := find?_eq_none.1 hf c hcm
        simp only [decide_eq_true_eq, not_lt] at this
        omega
      simp [hbe]
    · rw [find?_append, ih]
      cases bs.find? (e < ·.epoch) with
      | some c => rfl
      | none => by_cases hbe : e < b.epoch <;> simp [hbe]

/-- A stamped batch has the entry of its epoch, which starts at or below it. -/
theorem exists_entry (hb : b ∈ bs) (h0 : 0 ≤ b.epoch) :
    ∃ x ∈ (replay bs).entries, x.epoch = b.epoch ∧ x.startOffset ≤ b.baseOffset := by
  induction bs using List.reverseRecOn with
  | nil => cases hb
  | append_singleton bs z ih =>
    have hc' := (contiguous_append.1 hc).1
    have hle := pairwise_append.1 hm
    rw [replay_concat_entries hc]
    rcases mem_concat.1 hb with hb | rfl
    · obtain ⟨x, hx, hb⟩ := ih hc' hle.1 hb
      exact ⟨x, by split <;> simp [hx], hb⟩
    split
    · next hold =>
      obtain hneg | ⟨last, hlast, hbl⟩ := hold
      · omega
      have hmem := mem_of_getLast? hlast
      obtain ⟨c, hcm, hepoch, hstart, -⟩ := mem_replay hmem
      have := hle.2.2 c hcm b (by simp)
      have := hc'.lastOffset_lt_endFrom c hcm
      have := c.baseOffset_le_lastOffset
      have := hc.baseOffset_eq
      exact ⟨last, hmem, by omega, by omega⟩
    · exact ⟨_, mem_concat_self, rfl, le_rfl⟩

/-- A replayed history has an entry at or below an epoch as soon as the log has a stamped batch at
or below it. -/
theorem find?_replay_older {e : Int} :
    ((replay bs).entries.reverse.find? (·.epoch ≤ e)).isSome ↔
      ∃ b ∈ bs, 0 ≤ b.epoch ∧ b.epoch ≤ e := by
  rw [find?_isSome]
  simp only [mem_reverse, decide_eq_true_eq]
  constructor
  · rintro ⟨x, hx, hxe⟩
    obtain ⟨b, hb, hbe, -, h0⟩ := mem_replay hx
    exact ⟨b, hb, h0, by omega⟩
  · rintro ⟨b, hb, h0, hbe⟩
    obtain ⟨x, hx, hepoch, -⟩ := exists_entry hc hm hb h0
    exact ⟨x, hx, by omega⟩

end LeaderEpochCache

end ChronikStream
