import ChronikStream.Lib.Run
import ChronikStream.Replication.LeaderEpoch
import Mathlib.Data.List.Induction

/-!
# The epoch history of a leader under concurrent produces

`produce_to_partition` reserves offsets, stamps the batch and notes the epoch in the history, and
appends later. The history is the one a restart builds from the log where a new epoch is noted only
when all lower offsets are past the stamping, and a batch that began an epoch reaches the log
(`InOffsetOrder`).
-/

namespace ChronikStream

open Machine Slots List Option

/-- What the history sees of a batch of the log. -/
structure LoggedBatch where
  baseOffset : Int
  epoch : Int
  deriving DecidableEq

/-! ## Histories of a log -/

namespace LeaderEpochCache

/-- `observe_append` on every batch, in the order of the log. -/
def observeLog (c : LeaderEpochCache) (log : List LoggedBatch) : LeaderEpochCache :=
  log.foldl (fun c b => c.assign b.epoch b.baseOffset) c

/-- The epoch begins a new entry. -/
def Newer (c : LeaderEpochCache) (epoch : Int) : Prop :=
  0 ≤ epoch ∧ ∀ last ∈ c.entries.getLast?, last.epoch < epoch
deriving Decidable

section
variable {c : LeaderEpochCache} {e e' o : Int} {log : List LoggedBatch}

theorem not_newer_iff : ¬ c.Newer e ↔ e < 0 ∨ ∃ last ∈ c.entries.getLast?, e ≤ last.epoch := by
  rw [Newer, not_and_or, not_le]
  simp only [not_forall, not_lt, exists_prop]

theorem assign_of_not_newer (h : ¬ c.Newer e) (o : Int) : c.assign e o = c := by
  ext1
  rw [assign_entries, if_pos (not_newer_iff.1 h)]

theorem Newer.entries_assign (h : c.Newer e) (o : Int) :
    (c.assign e o).entries = c.entries.filter (·.startOffset < o) ++ [⟨e, o⟩] := by
  rw [assign_entries, if_neg fun hold => not_newer_iff.2 hold h]

theorem Newer.of_assign (h : (c.assign e' o).Newer e) : c.Newer e := by
  by_cases hnew : c.Newer e'
  · refine ⟨h.1, fun last hlast => ?_⟩
    have hlt := h.2 ⟨e', o⟩ (by rw [hnew.entries_assign, getLast?_concat]; rfl)
    exact (hnew.2 last hlast).trans hlt
  · rwa [assign_of_not_newer hnew] at h

theorem not_newer_assign (hle : e ≤ e') : ¬ (c.assign e' o).Newer e := by
  intro h
  by_cases hnew : c.Newer e'
  · have hlt := h.2 ⟨e', o⟩ (by rw [hnew.entries_assign, getLast?_concat]; rfl)
    exact absurd hlt (not_lt.2 hle)
  · rw [assign_of_not_newer hnew] at h
    exact hnew ⟨h.1.trans hle, fun last hlast => (h.2 last hlast).trans_le hle⟩

theorem observeLog_append (c : LeaderEpochCache) (log log' : List LoggedBatch) :
    c.observeLog (log ++ log') = (c.observeLog log).observeLog log' :=
  foldl_append

theorem observeLog_concat (c : LeaderEpochCache) (log : List LoggedBatch) (b : LoggedBatch) :
    c.observeLog (log ++ [b]) = (c.observeLog log).assign b.epoch b.baseOffset :=
  observeLog_append c log [b]

theorem observeLog_of_not_newer (h : ∀ b ∈ log, ¬ c.Newer b.epoch) : c.observeLog log = c := by
  induction log with
  | nil => rfl
  | cons b log ih =>
    rw [observeLog, foldl_cons, assign_of_not_newer (h b (.head _))]
    exact ih fun a ha => h a (.tail _ ha)

theorem Newer.of_observeLog (h : (c.observeLog log).Newer e) : c.Newer e := by
  induction log generalizing c with
  | nil => exact h
  | cons b log ih => exact (ih (c := c.assign b.epoch b.baseOffset) h).of_assign

theorem not_newer_observeLog (hb : b ∈ log) (hle : e ≤ b.epoch) : ¬ (c.observeLog log).Newer e := by
  obtain ⟨front, back, rfl⟩ := append_of_mem hb
  rw [← singleton_append, ← append_assoc, observeLog_append, observeLog_concat]
  exact fun h => not_newer_assign hle h.of_observeLog

theorem exists_batch_of_mem_observeLog (hx : x ∈ (empty.observeLog log).entries) :
    ∃ b ∈ log, b.baseOffset = x.startOffset := by
  induction log using List.reverseRecOn with
  | nil => cases hx
  | append_singleton log b ih =>
    rw [observeLog_concat] at hx
    by_cases hnew : (empty.observeLog log).Newer b.epoch
    · rw [hnew.entries_assign, mem_append, mem_filter, mem_singleton] at hx
      rcases hx with ⟨hx, -⟩ | rfl
      · obtain ⟨a, ha, heq⟩ := ih hx
        exact ⟨a, mem_append_left _ ha, heq⟩
      · exact ⟨b, mem_concat_self, rfl⟩
    · rw [assign_of_not_newer hnew] at hx
      obtain ⟨a, ha, heq⟩ := ih hx
      exact ⟨a, mem_append_left _ ha, heq⟩

/-- A history covers every stamped batch of a log in offset order: an entry of its epoch or a newer
one starts at or below it. -/
theorem exists_entry_of_mem (hsorted : (log.map (·.baseOffset)).Pairwise (· ≤ ·))
    (hb : b ∈ log) (hstamped : 0 ≤ b.epoch) :
    ∃ x ∈ (empty.observeLog log).entries, b.epoch ≤ x.epoch ∧ x.startOffset ≤ b.baseOffset := by
  induction log using List.reverseRecOn with
  | nil => cases hb
  | append_singleton log z ih =>
    rw [map_append, pairwise_append] at hsorted
    rw [observeLog_concat]
    by_cases hnew : (empty.observeLog log).Newer z.epoch
    · rw [hnew.entries_assign]
      rcases mem_concat.1 hb with hb | rfl
      · obtain ⟨x, hx, hepoch, hstart⟩ := ih hsorted.1 hb
        by_cases hkept : x.startOffset < z.baseOffset
        · exact ⟨x, mem_append_left _ (mem_filter.2 ⟨hx, decide_eq_true hkept⟩), hepoch, hstart⟩
        -- The entry is superseded by that of a newer epoch, which does not start above it.
        obtain ⟨last, hlast⟩ := ne_none_iff_exists'.1
          (getLast?_eq_none_iff.not.2 (ne_nil_of_mem hx))
        have hle := epoch_le_of_getLast? hlast x hx
        have hlt := hnew.2 last hlast
        exact ⟨_, mem_concat_self, by dsimp only; omega, by dsimp only; omega⟩
      · exact ⟨_, mem_concat_self, le_refl _, le_refl _⟩
    · rw [assign_of_not_newer hnew]
      rcases mem_concat.1 hb with hb | rfl
      · exact ih hsorted.1 hb
      rcases not_newer_iff.1 hnew with hneg | ⟨last, hlast, hle⟩
      · omega
      have hmem := mem_of_getLast? hlast
      obtain ⟨a, ha, heq⟩ := exists_batch_of_mem_observeLog hmem
      refine ⟨last, hmem, hle, ?_⟩
      rw [← heq]
      exact hsorted.2.2 _ (mem_map_of_mem ha) _ (.head _)

theorem endOffsetForEpoch_le (hx : x ∈ c.entries) (hstart : 0 ≤ x.startOffset)
    (hlt : requested < x.epoch) (logEndOffset : Int) :
    (c.endOffsetForEpoch requested logEndOffset).2 ≤ x.startOffset := by
  have hundefined : undefinedOffset ≤ x.startOffset := (by decide : undefinedOffset ≤ 0).trans hstart
  rw [endOffsetForEpoch]
  split
  case isTrue => exact hundefined
  case isFalse =>
  split
  case h_1 => exact hundefined
  case h_2 latest hlatest =>
  have hle := epoch_le_of_getLast? hlatest x hx
  rw [if_neg (by omega)]
  split
  case h_1 p s _ hs =>
    obtain ⟨-, front, back, hsplit, hfront⟩ := find?_eq_some_iff_append.1 hs
    have hincreasing := c.increasing
    rw [hsplit] at hx hincreasing
    rcases mem_append.1 hx with hx | hx
    · exact absurd (hfront x hx) (by simpa using hlt)
    rcases mem_cons.1 hx with rfl | hx
    · exact le_refl _
    · exact le_of_lt ((pairwise_cons.1 (pairwise_append.1 hincreasing).2.1).1 x hx).2
  case h_2 => exact hundefined

end

end LeaderEpochCache

/-! ## The model -/

inductive StampPhase where
  | reserved
  /-- The metadata has answered with the partition's epoch, if it has one. -/
  | looked (epoch : Option Int)
  /-- The batch carries this epoch, and the history was told if it was stamped. -/
  | stamped (epoch : Int)
  | appended (epoch : Int)
  | failed
  deriving DecidableEq

namespace StampPhase

def looked? : StampPhase → Option (Option Int)
  | .looked epoch => some epoch
  | _ => none

theorem eq_looked {phase : StampPhase} (h : phase.looked? = some epoch) :
    phase = .looked epoch := by
  cases phase <;> cases h
  rfl

/-- The epoch of a batch that is past the stamping and did not fail. -/
def stamped? : StampPhase → Option Int
  | .stamped epoch | .appended epoch => some epoch
  | _ => none

def appended? : StampPhase → Option Int
  | .appended epoch => some epoch
  | _ => none

def settled : StampPhase → Bool
  | .reserved | .looked _ => false
  | _ => true

def done : StampPhase → Bool
  | .appended _ | .failed => true
  | _ => false

end StampPhase

/-- A request with its reserved offset. The epoch is the client's, -1 before v2; only v2 can be
stamped. -/
structure ProduceSlot where
  baseOffset : Int
  headerEpoch : Int
  stampable : Bool
  phase : StampPhase
  deriving DecidableEq

namespace ProduceSlot

/-- The epoch that is written into the batch and noted: none where the metadata has no epoch or the
batch is not v2. -/
def stamp (x : ProduceSlot) (epoch : Option Int) : Option Int :=
  epoch.filter fun e => 0 ≤ e ∧ x.stampable

def stampedEpoch (x : ProduceSlot) (epoch : Option Int) : Int :=
  (x.stamp epoch).getD x.headerEpoch

def batch? (x : ProduceSlot) : Option LoggedBatch :=
  x.phase.stamped?.map (⟨x.baseOffset, ·⟩)

end ProduceSlot

/-- The log before the leadership, with the offset behind it. -/
structure EarlierLog where
  batches : List LoggedBatch
  nextOffset : Nat
  sorted : (batches.map (·.baseOffset)).Pairwise (· ≤ ·)
  bounds : ∀ b ∈ batches, 0 ≤ b.baseOffset ∧ b.baseOffset ≤ nextOffset

/-- A partition on its leader. The requests stand in the order in which they reserved their offsets.
-/
structure EpochPartition where
  earlier : List LoggedBatch
  nextOffset : Nat
  leaderEpoch : Option Int
  history : LeaderEpochCache
  slots : List ProduceSlot

namespace EpochPartition

variable (s : EpochPartition)

inductive Action where
  | reserve (recordCount : Nat) (headerEpoch : Int) (stampable : Bool)
  | lookUp (i : Nat)
  | stamp (i : Nat)
  | append (i : Nat)
  | fail (i : Nat)
  | setEpoch (epoch : Option Int)
  deriving DecidableEq

def reserve (recordCount : Nat) (headerEpoch : Int) (stampable : Bool) : EpochPartition :=
  { s with
    nextOffset := s.nextOffset + recordCount
    slots := s.slots ++ [⟨s.nextOffset, headerEpoch, stampable, .reserved⟩] }

def setPhase (i : Nat) (x : ProduceSlot) (phase : StampPhase) : EpochPartition :=
  { s with slots := s.slots.set i { x with phase := phase } }

/-- The steps of the requests. A request can fail at every point before its batch is in the log. -/
def step : Action → Option EpochPartition
  | .reserve recordCount headerEpoch stampable => some (s.reserve recordCount headerEpoch stampable)
  | .lookUp i => s.slots[i]?.bind fun x =>
    if x.phase = .reserved then some (s.setPhase i x (.looked s.leaderEpoch)) else none
  | .stamp i => s.slots[i]?.bind fun x => x.phase.looked?.map fun epoch =>
    { s.setPhase i x (.stamped (x.stampedEpoch epoch)) with
      history := (x.stamp epoch).elim s.history (s.history.assign · x.baseOffset) }
  | .append i => s.slots[i]?.bind fun x =>
    match x.phase with
    | .stamped epoch => some (s.setPhase i x (.appended epoch))
    | _ => none
  | .fail i => s.slots[i]?.bind fun x =>
    if x.phase.done then none else some (s.setPhase i x .failed)
  | .setEpoch epoch => some { s with leaderEpoch := epoch }

def log : List LoggedBatch :=
  s.earlier ++ s.slots.filterMap fun x => x.phase.appended?.map (⟨x.baseOffset, ·⟩)

def Done : Prop := ∀ x ∈ s.slots, x.phase.done
deriving Decidable

/-- A batch whose epoch is new is stamped, with all lower offsets past the stamping, and one that
fails after the stamp was not the first of its epoch. -/
def InOffsetOrder : Action → Prop
  | .stamp i => ∀ x ∈ s.slots[i]?, ∀ epoch ∈ x.phase.looked?, s.history.Newer (x.stampedEpoch epoch) →
    (x.stamp epoch).isSome ∧ ∀ y ∈ s.slots.take i, y.phase.settled
  | .fail i => ∀ x ∈ s.slots[i]?, ∀ e ∈ x.phase.stamped?, 0 ≤ e →
    ∃ b ∈ s.earlier ++ (s.slots.take i).filterMap ProduceSlot.batch?, e ≤ b.epoch
  | _ => True

instance : DecidableRel InOffsetOrder := fun _ _ => by
  unfold InOffsetOrder
  split <;> infer_instance

/-- The runs of one leadership. -/
def OneLeadership (_ : EpochPartition) (a : Action) : Prop := ∀ epoch, a ≠ .setEpoch epoch

instance : DecidableRel OneLeadership
  | _, .setEpoch epoch => .isFalse fun h => h epoch rfl
  | _, .reserve .. | _, .lookUp _ | _, .stamp _ | _, .append _ | _, .fail _ =>
    .isTrue fun _ h => by cases h

end EpochPartition

/-- A partition at the beginning of a leadership: the history was built from the log. -/
def epochPartition (earlier : EarlierLog) (leaderEpoch : Option Int) :
    Machine EpochPartition EpochPartition.Action where
  init := ⟨earlier.batches, earlier.nextOffset, leaderEpoch,
    LeaderEpochCache.empty.observeLog earlier.batches, []⟩
  step := EpochPartition.step

/-! ## Every run -/

namespace EpochPartition

open ProduceSlot (batch? stampedEpoch)
open LeaderEpochCache

/-- The requests are cut in two: the first part is past the stamping and in the history, the second
has told it nothing new. -/
structure Cut (s : EpochPartition) (front back : List ProduceSlot) : Prop where
  slots : s.slots = front ++ back
  settled : ∀ x ∈ front, x.phase.settled
  history : s.history = empty.observeLog (s.earlier ++ front.filterMap batch?)
  nothingNew : ∀ x ∈ back, ∀ b ∈ x.batch?, ¬ s.history.Newer b.epoch

/-- The base offsets of all batches, in the order of the log. -/
def bases (s : EpochPartition) : List Int :=
  s.earlier.map (·.baseOffset) ++ s.slots.map (·.baseOffset)

structure Inv (s : EpochPartition) : Prop where
  cut : ∃ front back, s.Cut front back
  sorted : s.bases.Pairwise (· ≤ ·)
  bounds : ∀ o ∈ s.bases, 0 ≤ o ∧ o ≤ s.nextOffset

section
variable {s s' : EpochPartition} {i : Nat} {x : ProduceSlot} {phase : StampPhase}
  {front back : List ProduceSlot}

theorem inv_init (earlier : EarlierLog) (leaderEpoch : Option Int) :
    (epochPartition earlier leaderEpoch).init.Inv where
  cut := by
    refine ⟨[], [], rfl, ?_, ?_, ?_⟩
    · intro x hx
      cases hx
    · exact congrArg _ (append_nil _).symm
    · intro x hx
      cases hx
  sorted := by
    rw [bases]
    exact (append_nil _).symm ▸ earlier.sorted
  bounds o ho := by
    rw [bases, mem_append] at ho
    rcases ho with ho | ho
    · obtain ⟨b, hb, rfl⟩ := mem_map.1 ho
      exact earlier.bounds b hb
    · cases ho

theorem bases_setPhase (hx : s.slots[i]? = some x) (phase : StampPhase) :
    (s.setPhase i x phase).bases = s.bases := by
  obtain ⟨before, after, hslots, -, hset, -⟩ := exists_split hx
  rw [bases, bases, setPhase, hset, hslots, map_append, map_append]
  rfl

section
variable (h : s.Cut front back) (hx : s.slots[i]? = some x)
include h hx

theorem Cut.locate :
    (∃ before after, front = before ++ x :: after ∧ s.slots.take i = before ∧
        ∀ y, s.slots.set i y = (before ++ y :: after) ++ back) ∨
      ∃ before after, back = before ++ x :: after ∧ s.slots.take i = front ++ before ∧
        ∀ y, s.slots.set i y = front ++ (before ++ y :: after) := by
  obtain ⟨before, after, hslots, htake, hset, -⟩ := exists_split hx
  rcases append_eq_append_iff.1 (h.slots.symm.trans hslots) with
    ⟨mid, hbefore, hback⟩ | ⟨mid, hfront, hafter⟩
  · refine .inr ⟨mid, after, hback, htake.trans hbefore, fun y => ?_⟩
    rw [hset, hbefore, append_assoc]
  rcases cons_eq_append_iff.1 hafter with ⟨rfl, hback⟩ | ⟨mid, rfl, hrest⟩
  · rw [append_nil] at hfront
    refine .inr ⟨[], after, hback, ?_, fun y => ?_⟩
    · rw [htake, hfront, append_nil]
    · rw [hset, hfront, nil_append]
  · refine .inl ⟨before, mid, hfront, htake, fun y => ?_⟩
    rw [hset, hrest, append_assoc, cons_append]

/-- A step of a request that changes neither its batch nor what the history was told. -/
theorem Cut.setPhase (hbatch : phase.stamped? = x.phase.stamped?) (hsettled : x.phase.settled → phase.settled) :
    ∃ front back, (s.setPhase i x phase).Cut front back := by
  have hsame : batch? { x with phase := phase } = x.batch? := congrArg (Option.map _) hbatch
  rcases h.locate hx with ⟨before, after, rfl, -, hset⟩ | ⟨before, after, rfl, -, hset⟩
  · refine ⟨_, _, hset _, forall_of_replace h.settled ?_, ?_, h.nothingNew⟩
    · exact hsettled (h.settled x mem_append_cons_self)
    · rw [filterMap_append, filterMap_cons, hsame, ← filterMap_cons, ← filterMap_append]
      exact h.history
  · refine ⟨_, _, hset _, h.settled, h.history, forall_of_replace h.nothingNew ?_⟩
    rw [hsame]
    exact h.nothingNew x mem_append_cons_self

/-- A request fails. Where its batch was stamped, a batch below it has its epoch or a newer one. -/
theorem Cut.fail (hok : ∀ e ∈ x.phase.stamped?, 0 ≤ e →
      ∃ b ∈ s.earlier ++ (s.slots.take i).filterMap batch?, e ≤ b.epoch) :
    ∃ front back, (s.setPhase i x .failed).Cut front back := by
  rcases h.locate hx with ⟨before, after, rfl, htake, hset⟩ | ⟨before, after, rfl, -, hset⟩
  · refine ⟨_, _, hset _, forall_of_replace h.settled rfl, ?_, h.nothingNew⟩
    · -- Without the batch the history is the same: it was not the first of its epoch.
      show s.history = empty.observeLog (s.earlier ++ _)
      rw [h.history, filterMap_append, filterMap_append, filterMap_cons]
      cases hbatch : x.batch? with
      | none => rfl
      | some b =>
      obtain ⟨e, he, rfl⟩ := map_eq_some_iff.1 hbatch
      have hold : ¬ (empty.observeLog
          (s.earlier ++ before.filterMap batch?)).Newer e := by
        intro hnew
        obtain ⟨b, hb, hle⟩ := hok e he hnew.1
        rw [htake] at hb
        exact not_newer_observeLog hb hle hnew
      rw [← append_assoc, ← append_assoc, observeLog_append _ (s.earlier ++ _),
        observeLog_append _ (s.earlier ++ _)]
      exact congrArg (observeLog · (after.filterMap batch?)) (assign_of_not_newer hold _)
  · refine ⟨_, _, hset _, h.settled, h.history, forall_of_replace h.nothingNew ?_⟩
    intro b hb
    cases hb

theorem Cut.stamp (hphase : x.phase.looked? = some epoch)
    (hok : s.history.Newer (x.stampedEpoch epoch) →
      (x.stamp epoch).isSome ∧ ∀ y ∈ s.slots.take i, y.phase.settled) :
    ∃ front back, ({ s.setPhase i x (.stamped (x.stampedEpoch epoch)) with
      history := (x.stamp epoch).elim s.history (s.history.assign · x.baseOffset) } :
        EpochPartition).Cut front back := by
  have hunsettled : ¬ x.phase.settled := by
    rw [StampPhase.eq_looked hphase]
    exact Bool.false_ne_true
  rcases h.locate hx with ⟨before, after, rfl, -, -⟩ | ⟨before, after, rfl, htake, hset⟩
  · exact absurd (h.settled x mem_append_cons_self) hunsettled
  by_cases hnew : s.history.Newer (x.stampedEpoch epoch)
  · -- All lower offsets are past the stamping: the first part grows up to this request.
    obtain ⟨hsome, hbelow⟩ := hok hnew
    obtain ⟨e, he⟩ := isSome_iff_exists.1 hsome
    have hepoch : x.stampedEpoch epoch = e := by rw [stampedEpoch, he, getD_some]
    have hold : s.history.observeLog (before.filterMap batch?) = s.history := by
      refine observeLog_of_not_newer fun b hb => ?_
      obtain ⟨y, hy, hyb⟩ := mem_filterMap.1 hb
      exact h.nothingNew y (mem_append_left _ hy) b hyb
    rw [he, hepoch]
    refine ⟨front ++ (before ++ [{ x with phase := .stamped e }]), after, ?_, ?_, ?_, ?_⟩
    · exact (hset _).trans (by simp only [append_assoc, singleton_append])
    · intro y hy
      rw [htake] at hbelow
      rw [← append_assoc, mem_concat] at hy
      rcases hy with hy | rfl
      · exact hbelow y hy
      · rfl
    · show s.history.assign e x.baseOffset = _
      rw [filterMap_append, filterMap_append, ← append_assoc, observeLog_append, observeLog_append]
      show _ = (observeLog (empty.observeLog (s.earlier ++ _)) _).assign e x.baseOffset
      rw [← h.history, hold]
    · intro y hy b hb hb'
      exact h.nothingNew y (mem_append_right _ (.tail _ hy)) b hb hb'.of_assign
  · have hsame : (x.stamp epoch).elim s.history (s.history.assign · x.baseOffset) = s.history := by
      cases he : x.stamp epoch with
      | none => rfl
      | some e =>
        rw [stampedEpoch, he] at hnew
        exact assign_of_not_newer hnew _
    rw [hsame]
    refine ⟨front, _, hset _, h.settled, h.history, forall_of_replace h.nothingNew ?_⟩
    intro b hb
    cases hb
    exact hnew

end

theorem Inv.of_cut (h : s.Inv) (hcut : ∃ front back, s'.Cut front back) (hbases : s'.bases = s.bases)
    (hnext : s'.nextOffset = s.nextOffset) : s'.Inv where
  cut := hcut
  sorted := hbases ▸ h.sorted
  bounds := by
    rw [hbases, hnext]
    exact h.bounds

theorem bases_reserve (s : EpochPartition) (recordCount : Nat) (headerEpoch : Int) (stampable : Bool) :
    (s.reserve recordCount headerEpoch stampable).bases = s.bases ++ [(s.nextOffset : Int)] := by
  rw [bases, bases, reserve, map_append, append_assoc]
  rfl

theorem Inv.reserve (h : s.Inv) (recordCount : Nat) (headerEpoch : Int) (stampable : Bool) :
    (s.reserve recordCount headerEpoch stampable).Inv := by
  obtain ⟨front, back, hcut⟩ := h.cut
  constructor
  case cut =>
    refine ⟨front, back ++ [⟨s.nextOffset, headerEpoch, stampable, .reserved⟩], ?_, hcut.settled,
      hcut.history, ?_⟩
    · rw [EpochPartition.reserve, hcut.slots, append_assoc]
    · rw [forall_mem_concat]
      refine ⟨hcut.nothingNew, ?_⟩
      intro b hb
      cases hb
  case sorted =>
    rw [bases_reserve, pairwise_concat]
    exact ⟨h.sorted, fun o ho => (h.bounds o ho).2⟩
  case bounds =>
    intro o ho
    rw [bases_reserve, mem_concat] at ho
    rw [EpochPartition.reserve]
    dsimp only
    rcases ho with ho | rfl
    · have := h.bounds o ho
      omega
    · omega

theorem Inv.step (h : s.Inv) (hok : s.InOffsetOrder a) (hs : s.step a = some s') : s'.Inv := by
  obtain ⟨front, back, hcut⟩ := h.cut
  cases a with
  | reserve recordCount headerEpoch stampable =>
    cases hs
    exact h.reserve recordCount headerEpoch stampable
  | lookUp i =>
    obtain ⟨x, hx, hs⟩ := bind_eq_some_iff.1 hs
    obtain ⟨hphase, rfl⟩ := of_guard hs
    refine h.of_cut (hcut.setPhase hx ?_ fun hsettled => ?_) (bases_setPhase hx _) rfl
    · rw [hphase]
      rfl
    · rw [hphase] at hsettled
      cases hsettled
  | stamp i =>
    obtain ⟨x, hx, hs⟩ := bind_eq_some_iff.1 hs
    obtain ⟨epoch, hphase, rfl⟩ := map_eq_some_iff.1 hs
    exact h.of_cut (hcut.stamp hx hphase (hok x hx epoch hphase)) (bases_setPhase hx _) rfl
  | append i =>
    obtain ⟨x, hx, hs⟩ := bind_eq_some_iff.1 hs
    split at hs <;> cases hs
    rename_i epoch hphase
    refine h.of_cut (hcut.setPhase hx ?_ fun _ => rfl) (bases_setPhase hx _) rfl
    rw [hphase]
    rfl
  | fail i =>
    obtain ⟨x, hx, hs⟩ := bind_eq_some_iff.1 hs
    obtain ⟨-, rfl⟩ := of_not_guard hs
    exact h.of_cut (hcut.fail hx (hok x hx)) (bases_setPhase hx _) rfl
  | setEpoch epoch =>
    cases hs
    exact ⟨⟨front, back, hcut.slots, hcut.settled, hcut.history, hcut.nothingNew⟩, h.sorted, h.bounds⟩

/-- When all requests are answered the log holds every batch that was stamped and did not fail. -/
theorem Done.log_eq (h : s.Done) : s.log = s.earlier ++ s.slots.filterMap batch? := by
  refine congrArg (s.earlier ++ ·) (filterMap_congr fun x hx => ?_)
  have hdone := h x hx
  rw [batch?]
  cases hphase : x.phase with
  | appended epoch | failed => rfl
  | reserved | looked epoch | stamped epoch =>
    rw [hphase] at hdone
    cases hdone

theorem Inv.history_eq (h : s.Inv) (hdone : s.Done) : s.history = empty.observeLog s.log := by
  obtain ⟨front, back, hcut⟩ := h.cut
  have hback : s.history.observeLog (back.filterMap batch?) = s.history := by
    refine observeLog_of_not_newer fun b hb => ?_
    obtain ⟨y, hy, hyb⟩ := mem_filterMap.1 hb
    exact hcut.nothingNew y hy b hyb
  rw [hdone.log_eq, hcut.slots, filterMap_append, ← append_assoc, observeLog_append,
    ← hcut.history, hback]

theorem bases_log_sublist (hdone : s.Done) : (s.log.map (·.baseOffset)).Sublist s.bases := by
  rw [hdone.log_eq, map_append]
  refine (List.Sublist.refl _).append ?_
  induction s.slots with
  | nil => exact .refl _
  | cons x slots ih =>
    rw [filterMap_cons]
    cases hbatch : x.batch? with
    | none => exact ih.cons _
    | some b =>
      obtain ⟨e, -, rfl⟩ := map_eq_some_iff.1 hbatch
      exact ih.cons_cons _

/-- Where epochs are noted in offset order, the history is that of the log once all requests are
answered, and no epoch is reported to end above a batch of a newer one. -/
theorem history_eq_replay {earlier : EarlierLog} {leaderEpoch : Option Int}
    (h : Reaches (epochPartition earlier leaderEpoch) InOffsetOrder s) (hdone : s.Done) :
    s.history = empty.observeLog s.log ∧
      ∀ (requested logEndOffset : Int), 0 ≤ requested → ∀ b ∈ s.log, requested < b.epoch →
        (s.history.endOffsetForEpoch requested logEndOffset).2 ≤ b.baseOffset := by
  have hinv : s.Inv := h.invariant (inv_init earlier leaderEpoch) fun _ _ _ hi hok hs => hi.step hok hs
  have hhistory := hinv.history_eq hdone
  refine ⟨hhistory, fun requested logEndOffset hrequested b hb hlt => ?_⟩
  have hsub := bases_log_sublist hdone
  obtain ⟨x, hx, hepoch, hstart⟩ :=
    exists_entry_of_mem (hinv.sorted.sublist hsub) hb (hrequested.trans (le_of_lt hlt))
  -- An entry starts at a batch of the log, so not below 0.
  obtain ⟨a, ha, hbase⟩ := exists_batch_of_mem_observeLog hx
  have hpos := (hinv.bounds _ (hsub.subset (mem_map_of_mem ha))).1
  rw [← hhistory] at hx
  exact (endOffsetForEpoch_le hx (hbase ▸ hpos) (hlt.trans_le hepoch) logEndOffset).trans hstart

end

end EpochPartition

/-! ## Requests that overtake one another -/

namespace EpochHistoryFixture

open EpochPartition

def earlier : EarlierLog where
  batches := [⟨0, 4⟩]
  nextOffset := 5
  sorted := pairwise_singleton _ _
  bounds := by decide

/-- The second request stamps last; an epoch later a third fails and a fourth is stamped before it.
-/
def ordered : List Action :=
  [.reserve 2 (-1) true, .reserve 1 (-1) true, .lookUp 1, .lookUp 0, .stamp 0, .stamp 1, .append 1,
    .setEpoch (some 6), .reserve 1 (-1) true, .reserve 3 (-1) true, .reserve 1 (-1) true, .lookUp 4,
    .lookUp 2, .stamp 2, .stamp 4, .append 0, .append 2, .lookUp 3, .stamp 3, .fail 3, .append 4]

/-- The request with the higher offset is first. -/
def overtaken : List Action :=
  [.reserve 1 (-1) true, .reserve 1 (-1) true, .lookUp 1, .stamp 1, .lookUp 0, .stamp 0, .append 0,
    .append 1]

/-- The first request fails after it has stamped its batch. -/
def failedFirst : List Action :=
  [.reserve 1 (-1) true, .reserve 1 (-1) true, .lookUp 0, .stamp 0, .fail 0, .lookUp 1, .stamp 1,
    .append 1]

/-- The partition has no epoch and the client has written one. -/
def unstamped : List Action :=
  [.reserve 1 7 true, .lookUp 0, .stamp 0, .append 0]

end EpochHistoryFixture

section
open EpochHistoryFixture EpochPartition LeaderEpochCache

theorem history_eq_replay_ordered :
    ∃ s, Reaches (epochPartition earlier (some 5)) InOffsetOrder s ∧ s.Done ∧
      s.history.entries = [⟨4, 0⟩, ⟨5, 5⟩, ⟨6, 8⟩] ∧
      s.history = empty.observeLog s.log ∧
      ∀ (requested logEndOffset : Int), 0 ≤ requested → ∀ b ∈ s.log, requested < b.epoch →
        (s.history.endOffsetForEpoch requested logEndOffset).2 ≤ b.baseOffset := by
  obtain ⟨s, hs, hdone, hentries⟩ := exists_reaches_of_run (epochPartition earlier (some 5)) InOffsetOrder
    ordered (fun s => s.Done ∧ s.history.entries = [⟨4, 0⟩, ⟨5, 5⟩, ⟨6, 8⟩]) (by decide)
  exact ⟨s, hs, hdone, hentries, history_eq_replay hs hdone⟩

/-- Behind a log of epoch 4 that ends at 5: a request with a higher offset notes epoch 5 first, so
epoch 4 ends at 6; a request notes epoch 5 and fails; the partition has no epoch, and the log has
the client's. -/
theorem epoch_history_differs_from_log :
    (∃ s, Reaches (epochPartition earlier (some 5)) OneLeadership s ∧ s.Done ∧
      s.history.entries = [⟨4, 0⟩, ⟨5, 6⟩] ∧ (empty.observeLog s.log).entries = [⟨4, 0⟩, ⟨5, 5⟩] ∧
      s.history.endOffsetForEpoch 4 7 = (4, 6) ∧ ⟨5, 5⟩ ∈ s.log) ∧
    (∃ s, Reaches (epochPartition earlier (some 5)) OneLeadership s ∧ s.Done ∧
      s.history.entries = [⟨4, 0⟩, ⟨5, 5⟩] ∧ (empty.observeLog s.log).entries = [⟨4, 0⟩, ⟨5, 6⟩]) ∧
    ∃ s, Reaches (epochPartition earlier none) OneLeadership s ∧ s.Done ∧
      s.history.entries = [⟨4, 0⟩] ∧ (empty.observeLog s.log).entries = [⟨4, 0⟩, ⟨7, 5⟩] := by
  refine ⟨?_, ?_, ?_⟩
  · exact exists_reaches_of_run (epochPartition earlier (some 5)) OneLeadership
      overtaken _ (by decide)
  · exact exists_reaches_of_run (epochPartition earlier (some 5)) OneLeadership
      failedFirst _ (by decide)
  · exact exists_reaches_of_run (epochPartition earlier none) OneLeadership unstamped _ (by decide)

end

end ChronikStream
