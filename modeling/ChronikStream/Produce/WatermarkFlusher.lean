import ChronikStream.Lib.Run
import Mathlib.Order.Basic
import Mathlib.Data.Int.Order.Basic

/-!
# The watermark flusher

`watermark_flusher.rs` for one partition, with `update_partition_offset` of the metadata store. The
store keeps the last write, so a note below a value that a pass has taken goes backwards once it is
written. Other notes are written in order (`watermark_kept`).
-/

namespace ChronikStream

open Machine Option

/-- Where the drain pass is. -/
inductive DrainPhase where
  | idle
  | emptied
  | writing (hwm : Int)
  | failed (hwm : Int)
  deriving DecidableEq

/-- The pending value, the drain pass, the stored offsets, and the largest value noted so far. -/
structure WatermarkFlusher where
  pending : Option Int
  drain : DrainPhase
  store : Option (Int × Int)
  noted : Int

namespace WatermarkFlusher

inductive Action where
  | note (watermark : Int)
  | swap
  | removeIf
  | write
  | writeFails
  | putBack

/-- `update_partition_offset`: the last write wins, and the log start offset never goes back. -/
def updatePartitionOffset (highWatermark logStartOffset : Int) : Option (Int × Int) → Int × Int
  | some (_, lso) => (highWatermark, max lso logStartOffset)
  | none => (highWatermark, max 0 logStartOffset)

section
variable (s : WatermarkFlusher)

/-- Notes up to zero are dropped. The value is removed only where no note came since it was found to
be zero. -/
def step : Action → Option WatermarkFlusher
  | .note watermark =>
    if watermark ≤ 0 then some s
    else some { s with
      pending := some (max (s.pending.getD 0) watermark), noted := max s.noted watermark }
  | .swap =>
    match s.drain, s.pending with
    | .idle, some hwm =>
      some { s with pending := some 0, drain := if hwm ≤ 0 then .emptied else .writing hwm }
    | _, _ => none
  | .removeIf =>
    match s.drain with
    | .emptied => some { s with pending := s.pending.filter (· ≠ 0), drain := .idle }
    | _ => none
  | .write =>
    match s.drain with
    | .writing hwm => some { s with store := some (updatePartitionOffset hwm 0 s.store), drain := .idle }
    | _ => none
  | .writeFails =>
    match s.drain with
    | .writing hwm => some { s with drain := .failed hwm }
    | _ => none
  | .putBack =>
    match s.drain with
    | .failed hwm => some { s with pending := s.pending.map (max hwm), drain := .idle }
    | _ => none

/-- A flusher on a store that holds what it held before. -/
def machine (stored : Option (Int × Int)) : Machine WatermarkFlusher Action :=
  ⟨⟨none, .idle, stored, 0⟩, step⟩

/-- What a pass has taken and not given back. -/
def inFlight : Option Int :=
  match s.drain with
  | .writing hwm | .failed hwm => some hwm
  | _ => none

def highWatermark : Option Int := s.store.map Prod.fst

/-- A note joins a pending value, or is not below what was taken last. -/
def NotBehind : Action → Prop
  | .note watermark => 0 < s.pending.getD 0 ∨ ∀ h ∈ s.inFlight.or s.highWatermark, h ≤ watermark
  | _ => True

instance : DecidableRel NotBehind := fun _ _ => by
  unfold NotBehind
  split <;> infer_instance

/-- A whole pass from an idle state, with a write that succeeds. -/
def pass : WatermarkFlusher :=
  ((s.step .swap).bind fun s => (s.step .write).or (s.step .removeIf)).getD s

end

/-- The largest value stands where a pass finds it next, and the others lie below. -/
structure Inv (s : WatermarkFlusher) : Prop where
  flight_le : ∀ v ∈ s.inFlight, 0 < v ∧ s.pending.isSome ∧ ∀ h ∈ s.highWatermark, h ≤ v
  pending_le : 0 < s.pending.getD 0 → ∀ h ∈ s.inFlight.or s.highWatermark, h ≤ s.pending.getD 0
  nonneg : 0 ≤ s.noted ∧ 0 ≤ s.pending.getD 0
  newest : 0 < s.noted →
    (if 0 < s.pending.getD 0 then s.pending else s.inFlight.or s.highWatermark) = some s.noted
  unnoted : s.noted = 0 → s.pending.getD 0 = 0 ∧ s.inFlight = none

theorem Inv.step (h : Inv s) (ha : s.NotBehind a) (hs : s.step a = some s') :
    s'.Inv ∧ ∀ v ∈ s.highWatermark, ∃ v' ∈ s'.highWatermark, v ≤ v' := by
  have ⟨hflight, hpending, hnonneg, hnewest, hunnoted⟩ := h
  cases a with rw [WatermarkFlusher.step] at hs
  | note w =>
    split at hs <;> cases hs
    · exact ⟨h, fun v hv => ⟨v, hv, le_rfl⟩⟩
    have htaken : ∀ v ∈ s.inFlight.or s.highWatermark, v ≤ max (s.pending.getD 0) w := fun v hv =>
      ha.elim (fun hp => (hpending hp v hv).trans (le_max_left _ _))
        fun hw => (hw v hv).trans (le_max_right _ _)
    refine ⟨⟨fun v hv => ⟨(hflight v hv).1, rfl, (hflight v hv).2.2⟩, fun _ => htaken, ?_,
      fun _ => ?_, ?_⟩, fun v hv => ⟨v, hv, le_rfl⟩⟩
    · grind
    · grind
    · grind
  | swap =>
    split at hs <;> cases hs
    refine ⟨?_, fun v hv => ⟨v, hv, le_rfl⟩⟩
    constructor <;> grind [inFlight, highWatermark]
  | removeIf =>
    split at hs <;> cases hs
    have hkept : s.pending.filter (· ≠ 0) = if s.pending.getD 0 = 0 then none else s.pending := by
      cases s.pending <;> grind
    refine ⟨?_, fun v hv => ⟨v, hv, le_rfl⟩⟩
    constructor <;> grind [inFlight, highWatermark]
  | write =>
    split at hs <;> cases hs
    next hwm hdrain =>
    have hwritten : (some (updatePartitionOffset hwm 0 s.store)).map Prod.fst = some hwm := by
      cases s.store <;> rfl
    have htaken : s.inFlight = some hwm := by rw [inFlight, hdrain]
    refine ⟨?_, fun v hv => ⟨hwm, hwritten, (hflight hwm htaken).2.2 v hv⟩⟩
    constructor <;> grind [inFlight, highWatermark]
  | writeFails =>
    split at hs <;> cases hs
    refine ⟨?_, fun v hv => ⟨v, hv, le_rfl⟩⟩
    constructor <;> grind [inFlight, highWatermark]
  | putBack =>
    split at hs <;> cases hs
    refine ⟨?_, fun v hv => ⟨v, hv, le_rfl⟩⟩
    cases hp : s.pending <;> constructor <;> grind [inFlight, highWatermark]

theorem inv_of_reaches (hs : Reaches (machine stored) NotBehind s) : s.Inv := by
  refine hs.invariant ?_ fun s a s' h ha hs => (h.step ha hs).1
  constructor <;> simp [machine, inFlight]

/-- With notes that are not behind, the stored watermark never goes back, and after a pass that
succeeds it is the largest value noted. -/
theorem watermark_kept (hs : Reaches (machine stored) NotBehind s) :
    (∀ a s', s.NotBehind a → s.step a = some s' →
      ∀ v ∈ s.highWatermark, ∃ v' ∈ s'.highWatermark, v ≤ v') ∧
      (s.drain = .idle → 0 < s.noted → s.pass.highWatermark = some s.noted) := by
  have h := inv_of_reaches hs
  refine ⟨fun a s' ha hs => (h.step ha hs).2, fun hidle hnoted => ?_⟩
  obtain ⟨-, hpending, hnonneg, hnewest, -⟩ := h
  obtain ⟨pending, drain, ⟨_, _⟩, noted⟩ := s
  all_goals grind [pass, inFlight, highWatermark, WatermarkFlusher.step, updatePartitionOffset]

theorem watermark_kept_retried :
    ∃ s, Reaches (machine none) NotBehind s ∧ s.drain = .idle ∧ s.noted = 15 ∧
    (∀ a s', s.NotBehind a → s.step a = some s' →
      ∀ v ∈ s.highWatermark, ∃ v' ∈ s'.highWatermark, v ≤ v') ∧
      s.pass.highWatermark = some s.noted := by
  obtain ⟨s, hreach, hidle, hnoted⟩ := exists_reaches_of_run (machine none) NotBehind
    [.note 10, .swap, .writeFails, .note 12, .note 11, .putBack, .swap, .write, .note 15]
    (fun s => s.drain = .idle ∧ s.noted = 15) (by decide)
  obtain ⟨hmono, hpass⟩ := watermark_kept hreach
  exact ⟨s, hreach, hidle, hnoted, hmono, hpass hidle (by omega)⟩

/-- Of two producers the one with the lower watermark is late: its note is written after the higher
one. -/
theorem late_note_written : ¬ ∀ s a s', Reaches (machine none) Always s → s.step a = some s' →
    ∀ v ∈ s.highWatermark, ∃ v' ∈ s'.highWatermark, v ≤ v' := by
  intro h
  obtain ⟨s, hreach, hten, hfive⟩ := exists_reaches_of_run (machine none) Always
    [.note 10, .swap, .write, .note 5, .swap]
    (fun s => s.highWatermark = some 10 ∧ (s.step .write).map highWatermark = some (some 5)) (by decide)
  obtain ⟨s', hs', hwritten⟩ := map_eq_some_iff.1 hfive
  obtain ⟨v', hv', hle⟩ := h s .write s' hreach hs' 10 hten
  rw [hwritten, mem_some_iff] at hv'
  omega

end WatermarkFlusher

end ChronikStream
