import ChronikStream.Lib.Slots
import Mathlib.Algebra.Order.Group.Int

/-!
# Leader epoch histories

`replication/leader_epoch.rs`. `LeaderEpochCache` says at which offset each epoch of a partition
began, strictly increasing in both (`EpochEntry.Precedes`): the source states this in a comment,
here it is a field. `LeaderEpochStore` keeps the histories by topic and partition.
-/

namespace ChronikStream

open List

/-- No epoch: Kafka's `UNDEFINED_EPOCH`. -/
def undefinedEpoch : Int := -1

/-- No offset: Kafka's `UNDEFINED_EPOCH_OFFSET`. -/
def undefinedOffset : Int := -1

structure EpochEntry where
  epoch : Int
  startOffset : Int
  deriving DecidableEq, Repr

/-- The order in which a history lists its entries: a later entry has both a larger epoch and a
larger start offset. -/
def EpochEntry.Precedes (a b : EpochEntry) : Prop :=
  a.epoch < b.epoch ∧ a.startOffset < b.startOffset

structure LeaderEpochCache where
  entries : List EpochEntry
  increasing : entries.Pairwise EpochEntry.Precedes

namespace LeaderEpochCache

@[ext] theorem ext {c d : LeaderEpochCache} (h : c.entries = d.entries) : c = d := by
  cases c; cases d; cases h; rfl

def empty : LeaderEpochCache := ⟨[], .nil⟩

@[simp] theorem empty_entries : empty.entries = [] := rfl

def latestEpoch (c : LeaderEpochCache) : Option Int :=
  c.entries.getLast?.map (·.epoch)

theorem epoch_le_of_getLast? {c : LeaderEpochCache}
    (hl : c.entries.getLast? = some last) : ∀ x ∈ c.entries, x.epoch ≤ last.epoch := by
  intro x hx
  rcases c.increasing.eq_or_of_getLast? hl hx with rfl | hlt
  · exact le_rfl
  · exact le_of_lt hlt.1

/-- The tail of `assign`: a new epoch supersedes the entries that start at or after its own start,
and goes to the end. -/
def supersede (c : LeaderEpochCache) (e : EpochEntry) (h : ∀ x ∈ c.entries, x.epoch < e.epoch) :
    LeaderEpochCache where
  entries := c.entries.filter (·.startOffset < e.startOffset) ++ [e]
  increasing := by
    refine pairwise_concat.2 ⟨c.increasing.filter _, fun x hx => ?_⟩
    rw [mem_filter, decide_eq_true_iff] at hx
    exact ⟨h x hx.1, hx.2⟩

def assign (c : LeaderEpochCache) (epoch startOffset : Int) : LeaderEpochCache :=
  if epoch < 0 then c  -- unstamped batch
  else
    match hl : c.entries.getLast? with
    | some last =>
      if hlt : epoch < last.epoch then c  -- the log was rewritten beneath us
      else if hne : epoch = last.epoch then c  -- same leader, still writing
      else c.supersede ⟨epoch, startOffset⟩ fun x hx => by
        have := epoch_le_of_getLast? hl x hx
        dsimp only
        omega
    | none => c.supersede ⟨epoch, startOffset⟩ fun x hx => by
        rw [getLast?_eq_none_iff] at hl
        simp [hl] at hx

/-- `assign` does nothing for an unstamped batch or an epoch that is not newer, and else supersedes.
-/
theorem assign_entries (c : LeaderEpochCache) (epoch startOffset : Int) :
    (c.assign epoch startOffset).entries =
      if epoch < 0 ∨ ∃ last ∈ c.entries.getLast?, epoch ≤ last.epoch then c.entries
      else c.entries.filter (·.startOffset < startOffset) ++ [⟨epoch, startOffset⟩] := by
  unfold assign
  by_cases hneg : epoch < 0
  · simp [hneg]
  simp only [hneg, if_false, false_or]
  split
  · next last hl =>
    simp only [hl, Option.mem_def, Option.some.injEq, exists_eq_left']
    by_cases hlt : epoch < last.epoch
    · rw [dif_pos hlt, if_pos hlt.le]
    rw [dif_neg hlt]
    by_cases heq : epoch = last.epoch
    · rw [dif_pos heq, if_pos heq.le]
    · rw [dif_neg heq, if_neg (by omega)]
      rfl
  · next hl =>
    simp only [hl, Option.mem_def, reduceCtorEq, false_and, exists_false, if_false]
    rfl

/-- Where did `requested` end? The current epoch at the log end, an earlier one where the next
began. -/
def endOffsetForEpoch (c : LeaderEpochCache) (requested logEndOffset : Int) : Int × Int :=
  if requested < 0 then (undefinedEpoch, undefinedOffset)
  else
    match c.entries.getLast? with
    | none => (undefinedEpoch, undefinedOffset)
    | some latest =>
      if requested = latest.epoch then (requested, logEndOffset)
      else
        match c.entries.reverse.find? (·.epoch ≤ requested),
          c.entries.find? (requested < ·.epoch) with
        | some p, some s => (p.epoch, s.startOffset)
        | _, _ => (undefinedEpoch, undefinedOffset)

/-- Drop history at or above `endOffset`, after the log was truncated there. -/
def truncateFromEnd (c : LeaderEpochCache) (endOffset : Int) : LeaderEpochCache :=
  if endOffset < 0 then c
  else ⟨c.entries.filter (·.startOffset < endOffset), c.increasing.filter _⟩

end LeaderEpochCache

/-- The leader epoch histories of one node, by topic and partition. -/
structure LeaderEpochStore where
  caches : String × Int → Option LeaderEpochCache

namespace LeaderEpochStore

def empty : LeaderEpochStore := ⟨fun _ => none⟩

def set (s : LeaderEpochStore) (tp : String × Int) (c : LeaderEpochCache) : LeaderEpochStore :=
  ⟨fun k => if k = tp then some c else s.caches k⟩

/-- Record the epoch stamped on an appended batch. -/
def observeAppend (s : LeaderEpochStore) (topic : String) (part epoch baseOffset : Int) :
    LeaderEpochStore :=
  if epoch < 0 then s
  else s.set (topic, part)
    (((s.caches (topic, part)).getD .empty).assign epoch baseOffset)

def latestEpoch (s : LeaderEpochStore) (topic : String) (part : Int) : Option Int :=
  (s.caches (topic, part)).bind (·.latestEpoch)

/-- The answer of `OffsetForLeaderEpoch` for one partition. -/
def endOffsetForEpoch (s : LeaderEpochStore) (topic : String) (part requested logEndOffset : Int) :
    Int × Int :=
  match s.caches (topic, part) with
  | some c => c.endOffsetForEpoch requested logEndOffset
  | none => (undefinedEpoch, undefinedOffset)

/-- Drop one partition's history at or above `endOffset`. -/
def truncateFromEnd (s : LeaderEpochStore) (topic : String) (part endOffset : Int) :
    LeaderEpochStore :=
  match s.caches (topic, part) with
  | some c => s.set (topic, part) (c.truncateFromEnd endOffset)
  | none => s

/-- The history of one partition, empty where the store has none. -/
def historyOf (s : LeaderEpochStore) (topic : String) (part : Int) : LeaderEpochCache :=
  (s.caches (topic, part)).getD .empty

variable (s : LeaderEpochStore)

theorem latestEpoch_eq (topic : String) (part : Int) :
    s.latestEpoch topic part = (s.historyOf topic part).latestEpoch := by
  unfold latestEpoch historyOf
  cases s.caches (topic, part) <;> rfl

theorem endOffsetForEpoch_eq (topic : String) (part requested logEndOffset : Int) :
    s.endOffsetForEpoch topic part requested logEndOffset =
      (s.historyOf topic part).endOffsetForEpoch requested logEndOffset := by
  unfold endOffsetForEpoch historyOf
  cases s.caches (topic, part) with
  | some c => rfl
  | none => simp [LeaderEpochCache.endOffsetForEpoch]

/-- The store tests the sign of the epoch before `assign` does, which saves an empty history and
changes no answer. -/
theorem historyOf_observeAppend (topic : String) (part epoch baseOffset : Int) :
    (s.observeAppend topic part epoch baseOffset).historyOf topic part =
      (s.historyOf topic part).assign epoch baseOffset := by
  unfold observeAppend
  split
  · next h => unfold LeaderEpochCache.assign; rw [if_pos h]
  · simp [historyOf, set]

end LeaderEpochStore

end ChronikStream
