import ChronikStream.Lib.Bytes
import ChronikStream.Metadata.Store
import ChronikStream.Produce.PartitionStates

/-!
# The low watermark of a partition

The value that `delete_records` returns is kept in memory, in the metadata store and in its log,
which are written in separate steps, and it can fall again: two deletions overlap, a state is built
that starts at 0, or the sync task stores it without an event (`low_watermark_falls`). Without these
(`KeepsLowWatermark`) a returned low watermark stays in force (`returned_stays_deleted`).
-/

namespace ChronikStream

open Bytes Machine Metadata List Option MetadataState PartitionStates PartitionState

/-- Where a request is that needs the state of the partition: a produce request or a call of
`delete_records`. -/
inductive DeletePhase where
  | idle
  | creating
  | listing
  | persisting (highWatermark logStartOffset : Int)
  | building (highWatermark logStartOffset : Int)
  | holding (state : Nat)
  /-- The new low watermark is computed, and not stored yet. -/
  | storing (state : Nat) (newLso : Int)
  /-- It is in the state, and `update_log_start_offset` is called. -/
  | stored (newLso : Int)
  /-- It was found to be above the one in the metadata store. -/
  | writing (newLso : Int)
  | done

/-- The state and the value of a store that is to be done. -/
def DeletePhase.toStore : DeletePhase → Option (Nat × Int)
  | .storing state newLso => some (state, newLso)
  | _ => none

/-- The log start offset that is to be put into the metadata store with a new state. -/
def DeletePhase.toPersist : DeletePhase → Option Int
  | .persisting _ logStartOffset => some logStartOffset
  | _ => none

/-- The states, the metadata store's offsets in memory and in its log, and the requests. `syncs` are
the offsets read by the sync task and not written yet, `returned` the low watermarks returned after
their write succeeded. -/
structure DeletablePartition where
  built : List PartitionState
  current : Option Nat
  offsets : Option (Int × Int)
  logged : Option (Int × Int)
  segments : List (Int × Int)
  calls : Nat → DeletePhase
  updates : Nat → UpdatePhase
  syncs : List (Int × Int)
  returned : List Int

namespace DeletablePartition

inductive Action where
  | lookup (i : Nat)
  | getPartitionOffset (i : Nat)
  | listSegments (i : Nat)
  | updatePartitionOffset (i : Nat) (ok : Bool)
  | insert (i : Nat)
  | fail (i : Nat)
  /-- The records of a produce request are reserved and acknowledged. -/
  | produce (i recordCount : Nat)
  | load (i : Nat) (requestedOffset : Int)
  | store (i : Nat)
  | checkStart (i : Nat)
  | writeStart (i : Nat) (ok : Bool)
  | updateHighWatermark (j : Nat) (highWatermark : Int)
  | insertUpdate (j : Nat)
  | readSync
  | writeSync (n : Nat) (ok : Bool)
  /-- The flusher writes a watermark it was told of. -/
  | flush (highWatermark : Int) (ok : Bool)
  | register (first last : Int)
  /-- A crash and a startup, which restores the partition with this watermark or not at all. -/
  | restart (restored : Option Int)

section
variable (s : DeletablePartition)

def setCall (i : Nat) (phase : DeletePhase) : DeletablePartition :=
  { s with calls := Function.update s.calls i phase }

def setUpdate (j : Nat) (phase : UpdatePhase) : DeletablePartition :=
  { s with updates := Function.update s.updates j phase }

def insertState (state : PartitionState) : DeletablePartition :=
  { s with built := s.built ++ [state], current := some s.built.length }

def writeAndApply (f : Option (Int × Int) → Int × Int) : DeletablePartition :=
  { s with offsets := some (f s.offsets), logged := some (f s.logged) }

/-- `update_partition_offset`: an event for a changed watermark, and then the log start is raised in
memory; nothing where the event cannot be written. -/
def putPartitionOffset (highWatermark logStartOffset : Int) (ok : Bool) : DeletablePartition :=
  let changed := s.offsets.map (·.1) ≠ some highWatermark
  if changed ∧ ¬ ok then s
  else
    let s := if changed then s.writeAndApply (setHighWatermark · highWatermark) else s
    { s with offsets := some ((s.offsets.map fun o => (o.1, max o.2 logStartOffset)).getD
      (highWatermark, logStartOffset)) }

/-- What `delete_records` stores for an offset, and `none` if it is out of range. -/
def newLowWatermark (state : PartitionState) (requestedOffset : Int) : Option Int :=
  let highWatermark := asI64 state.highWatermark
  let target := if requestedOffset = -1 then highWatermark else requestedOffset
  if target < 0 ∨ highWatermark < target then none else some (max target (asI64 state.logStartOffset))

def step : Action → Option DeletablePartition
  | .lookup i =>
    match s.calls i with
    | .idle => some (s.setCall i (s.current.elim .creating .holding))
    | _ => none
  | .getPartitionOffset i =>
    match s.calls i with
    | .creating => some (s.setCall i (s.offsets.elim .listing fun (hw, lso) => .building hw lso))
    | _ => none
  | .listSegments i =>
    match s.calls i with
    | .listing => some (s.setCall i
        (.persisting (segmentsEnd s.segments) (segmentsStart s.segments)))
    | _ => none
  | .updatePartitionOffset i ok =>
    match s.calls i with
    | .persisting hw lso => some ((s.putPartitionOffset hw lso ok).setCall i (.building hw lso))
    | _ => none
  | .insert i =>
    match s.calls i with
    | .building hw lso => some ((s.insertState (.new hw lso)).setCall i (.holding s.built.length))
    | _ => none
  | .fail i => some (s.setCall i .done)
  | .produce i recordCount =>
    match s.calls i with
    | .holding k =>
      let produced (state : PartitionState) :=
        { state.reserve recordCount with
          highWatermark := max state.highWatermark (state.reserve recordCount).nextOffset }
      some ({ s with built := s.built.modify k produced }.setCall i .done)
    | _ => none
  | .load i requestedOffset =>
    match s.calls i with
    | .holding k => s.built[k]?.map fun state =>
      s.setCall i ((newLowWatermark state requestedOffset).elim .done (.storing k))
    | _ => none
  | .store i =>
    match s.calls i with
    | .storing k newLso => some ({ s with
        built := s.built.modify k ({ · with logStartOffset := asU64 newLso }) }.setCall i (.stored newLso))
    | _ => none
  | .checkStart i =>
    match s.calls i with
    | .stored newLso =>
      match s.offsets with
      | some (_, currentLso) =>
        if currentLso < newLso then some (s.setCall i (.writing newLso))
        else some { s.setCall i .done with returned := s.returned ++ [newLso] }
      | none => some (s.setCall i (.writing newLso))
    | _ => none
  | .writeStart i ok =>
    match s.calls i with
    | .writing newLso =>
      if ok then some { (s.writeAndApply (MetadataState.raiseLogStart · newLso)).setCall i .done with
        returned := s.returned ++ [newLso] }
      else some (s.setCall i .done)
    | _ => none
  | .updateHighWatermark j highWatermark =>
    match s.updates j, s.current with
    | .idle, some k => some
      ({ s with built := s.built.modify k (·.raiseWatermark (asU64 (max highWatermark 0))) }.setUpdate j .done)
    | .idle, none => some (s.setUpdate j (.creating highWatermark))
    | _, _ => none
  | .insertUpdate j =>
    match s.updates j with
    | .creating highWatermark => some ((s.insertState (.new highWatermark 0)).setUpdate j .done)
    | _ => none
  | .readSync => (s.current.bind (s.built[·]?)).map fun state =>
      { s with syncs := s.syncs ++ [(asI64 state.highWatermark, asI64 state.logStartOffset)] }
  | .writeSync n ok => s.syncs[n]?.map fun o =>
      { s.putPartitionOffset o.1 o.2 ok with syncs := s.syncs.eraseIdx n }
  | .flush highWatermark ok => some (s.putPartitionOffset highWatermark 0 ok)
  | .register first last =>
    -- offsets are 64-bit and not negative
    if 0 ≤ first ∧ first < 2 ^ 63 then some { s with segments := s.segments ++ [(first, last)] } else none
  | .restart restored => some { s with
      built := (restored.map (new · 0)).toList
      current := restored.map fun _ => 0
      offsets := s.logged
      calls := fun _ => .idle
      updates := fun _ => .idle
      syncs := [] }

def machine : Machine DeletablePartition Action where
  init := ⟨[], none, none, none, [], fun _ => .idle, fun _ => .idle, [], []⟩
  step := step

/-- The log start offset in the metadata store, as the fallback of `get_log_start_offset` has it. -/
def lowWatermark (offsets : Option (Int × Int)) : Int := max ((offsets.map (·.2)).getD 0) 0

def getLogStartOffset : Int :=
  match s.current.bind (s.built[·]?) with
  | some state => asI64 state.logStartOffset
  | none => lowWatermark s.offsets

/-- The error code of `check_offset_range`, OFFSET_OUT_OF_RANGE. -/
def checkOffsetRange (fetchOffset : Int) : Option Int :=
  if fetchOffset < s.getLogStartOffset then some 1 else none

/-- A deletion stores no lower value; a state is inserted only where there is none, and one that
starts at 0 is built only if nothing was deleted; and nothing above the log is put into the store
without an event. -/
def KeepsLowWatermark : Action → Prop
  | .store i => ∀ c ∈ (s.calls i).toStore, ∀ state ∈ s.built[c.1]?, asI64 state.logStartOffset ≤ c.2
  | .insert _ => s.current = none
  | .insertUpdate _ => s.current = none ∧ lowWatermark s.offsets = 0
  | .restart restored => restored = none ∨ lowWatermark s.logged = 0
  | .updatePartitionOffset i _ => ∀ lso ∈ (s.calls i).toPersist, lso ≤ lowWatermark s.logged
  | .writeSync n _ => ∀ o ∈ s.syncs[n]?, o.2 ≤ lowWatermark s.logged
  | _ => True

end

instance : DecidableRel KeepsLowWatermark := fun _ _ => by
  unfold KeepsLowWatermark
  split <;> infer_instance

/-! ## The copies of the low watermark -/

variable {s s' : DeletablePartition} {state : PartitionState} {i j k : Nat} {hw lso newLso w : Int}

theorem asI64_asU64 (h0 : 0 ≤ w) (h : w < 2 ^ 63) : asI64 (asU64 w) = w := by
  have hcast : ((asU64 w : Nat) : Int) = w := by
    rw [asU64]
    omega
  have hlt : asU64 w < 2 ^ 63 := by omega
  rw [asI64, wrap_eq (fits_of_lt hlt), hcast]

/-- The log start offset of a state that is built from the metadata. -/
theorem logStartOffset_new (hw : Int) (h0 : 0 ≤ lso) (hlt : lso < 2 ^ 63) :
    (new hw lso).logStartOffset < 2 ^ 63 ∧
      asI64 (new hw lso).logStartOffset = lso := by
  refine ⟨?_, asI64_asU64 h0 hlt⟩
  have hlogStart : (new hw lso).logStartOffset = asU64 lso := rfl
  rw [hlogStart, asU64]
  omega

section
variable (offsets : Option (Int × Int))
include offsets

theorem lowWatermark_setHighWatermark (highWatermark : Int) :
    lowWatermark (some (setHighWatermark offsets highWatermark)) = lowWatermark offsets := by
  cases offsets with
  | none | some => rfl

theorem lowWatermark_raiseLogStart (newLso : Int) :
    lowWatermark (some (MetadataState.raiseLogStart offsets newLso)) = max (lowWatermark offsets) newLso := by
  cases offsets with
  | none =>
    have hnone : lowWatermark none = 0 := rfl
    have hsome : lowWatermark (some (MetadataState.raiseLogStart none newLso)) = max newLso 0 := rfl
    omega
  | some o =>
    have hold : lowWatermark (some o) = max o.2 0 := rfl
    have hnew : lowWatermark (some (MetadataState.raiseLogStart (some o) newLso)) =
      max (if o.2 < newLso then newLso else o.2) 0 := rfl
    rw [hnew]
    split <;> omega

end

/-- The offsets are the log's, with a log start offset that the store's types allow. -/
structure MetadataOk (s : DeletablePartition) : Prop where
  same : lowWatermark s.offsets = lowWatermark s.logged
  fits : ∀ o ∈ s.offsets, 0 ≤ o.2 ∧ o.2 < 2 ^ 63
  loggedFits : ∀ o ∈ s.logged, 0 ≤ o.2 ∧ o.2 < 2 ^ 63
  segments : ∀ segment ∈ s.segments, 0 ≤ segment.1 ∧ segment.1 < 2 ^ 63

theorem MetadataOk.of_eq (h : s.MetadataOk) (hoffsets : s'.offsets = s.offsets)
    (hlogged : s'.logged = s.logged) (hsegments : s'.segments = s.segments) : s'.MetadataOk where
  same := by
    rw [hoffsets, hlogged]
    exact h.same
  fits := by
    rw [hoffsets]
    exact h.fits
  loggedFits := by
    rw [hlogged]
    exact h.loggedFits
  segments := by
    rw [hsegments]
    exact h.segments

/-- A log start that was read while there is no state is not below any returned, and a stored value
not above that of the state. -/
def CallOk (s : DeletablePartition) : DeletePhase → Prop
  | .idle | .creating | .done => True
  | .listing => s.current = none → ∀ w ∈ s.returned, w ≤ 0
  | .persisting _ lso | .building _ lso =>
    0 ≤ lso ∧ lso < 2 ^ 63 ∧ (s.current = none → ∀ w ∈ s.returned, w ≤ lso)
  | .holding k => s.current = some k
  | .storing k newLso => s.current = some k ∧ 0 ≤ newLso ∧ newLso < 2 ^ 63
  | .stored newLso | .writing newLso =>
    s.current ≠ none ∧ 0 ≤ newLso ∧ newLso < 2 ^ 63 ∧ ∀ state ∈ s.built, newLso ≤ asI64 state.logStartOffset

structure Inv (s : DeletablePartition) : Prop where
  metadata : s.MetadataOk
  single : s.built.length ≤ 1
  current : ∀ k, s.current = some k → k = 0 ∧ s.built ≠ []
  unbuilt : s.current = none → s.built = []
  states : ∀ state ∈ s.built, state.logStartOffset < 2 ^ 63 ∧ ∀ w ∈ s.returned, w ≤ asI64 state.logStartOffset
  logged : ∀ w ∈ s.returned, w ≤ lowWatermark s.logged
  calls : ∀ i, s.CallOk (s.calls i)
  syncs : ∀ o ∈ s.syncs, 0 ≤ o.2 ∧ o.2 < 2 ^ 63

/-- A request in progress knows as much after a change that neither creates a state, nor returns a
value, nor lowers a log start offset. -/
theorem CallOk.of_eq (h : s.CallOk phase) (hcurrent : s'.current = s.current)
    (hreturned : s'.returned = s.returned) (hbuilt : ∀ state' ∈ s'.built, ∃ state ∈ s.built,
      asI64 state.logStartOffset ≤ asI64 state'.logStartOffset) : s'.CallOk phase := by
  cases phase with
  | idle | creating | done => trivial
  | listing =>
    intro hnone
    rw [hcurrent] at hnone
    rw [hreturned]
    exact h hnone
  | persisting _ lso | building _ lso =>
    refine ⟨h.1, h.2.1, ?_⟩
    rw [hcurrent, hreturned]
    exact h.2.2
  | holding k => exact hcurrent.trans h
  | storing k newLso => exact ⟨hcurrent.trans h.1, h.2⟩
  | stored newLso | writing newLso =>
    refine ⟨?_, h.2.1, h.2.2.1, ?_⟩
    · rw [hcurrent]
      exact h.1
    · intro state' hstate'
      obtain ⟨state, hstate, hle⟩ := hbuilt state' hstate'
      exact le_trans (h.2.2.2 state hstate) hle

theorem Inv.setCall (h : s.Inv) (hphase : s.CallOk phase) : (s.setCall i phase).Inv where
  __ := h
  metadata := h.metadata.of_eq rfl rfl rfl
  calls := by
    intro i'
    by_cases heq : i' = i
    · subst heq
      have hcall : (s.setCall i' phase).calls i' = phase := Function.update_self ..
      rw [hcall]
      exact hphase.of_eq rfl rfl fun state hstate => ⟨state, hstate, le_refl _⟩
    · have hcall : (s.setCall i phase).calls i' = s.calls i' := Function.update_of_ne heq ..
      rw [hcall]
      exact (h.calls i').of_eq rfl rfl fun state hstate => ⟨state, hstate, le_refl _⟩

/-- A step that changes only the metadata, and does not lower what its log has. -/
theorem Inv.of_metadata (h : s.Inv) (hmetadata : s'.MetadataOk) (hbuilt : s'.built = s.built)
    (hcurrent : s'.current = s.current) (hcalls : s'.calls = s.calls) (hreturned : s'.returned = s.returned)
    (hsyncs : ∀ o ∈ s'.syncs, 0 ≤ o.2 ∧ o.2 < 2 ^ 63)
    (hlogged : lowWatermark s.logged ≤ lowWatermark s'.logged) : s'.Inv where
  metadata := hmetadata
  single := by
    rw [hbuilt]
    exact h.single
  current := by
    rw [hbuilt, hcurrent]
    exact h.current
  unbuilt := by
    rw [hbuilt, hcurrent]
    exact h.unbuilt
  states := by
    rw [hbuilt, hreturned]
    exact h.states
  logged := by
    intro w hw
    rw [hreturned] at hw
    exact le_trans (h.logged w hw) hlogged
  calls := by
    intro i
    rw [hcalls]
    apply (h.calls i).of_eq hcurrent hreturned
    intro state hstate
    rw [hbuilt] at hstate
    exact ⟨state, hstate, le_refl _⟩
  syncs := hsyncs

theorem Inv.modify (h : s.Inv) (hf : ∀ state ∈ s.built[k]?, (f state).logStartOffset < 2 ^ 63 ∧
      asI64 state.logStartOffset ≤ asI64 (f state).logStartOffset) :
    Inv { s with built := s.built.modify k f } := by
  have hbuilt : ∀ state' ∈ s.built.modify k f, ∃ state ∈ s.built,
      state'.logStartOffset < 2 ^ 63 ∧ asI64 state.logStartOffset ≤ asI64 state'.logStartOffset := by
    intro state' hstate'
    obtain ⟨n, hn⟩ := mem_iff_getElem?.1 hstate'
    rw [getElem?_modify] at hn
    obtain ⟨state, hstate, rfl⟩ := map_eq_some_iff.1 hn
    refine ⟨state, mem_of_getElem? hstate, ?_⟩
    split
    case isTrue heq =>
      subst heq
      exact hf state hstate
    case isFalse => exact ⟨(h.states state (mem_of_getElem? hstate)).1, le_refl _⟩
  constructor
  case metadata => exact h.metadata.of_eq rfl rfl rfl
  case single =>
    rw [length_modify]
    exact h.single
  case current =>
    intro k' hk'
    obtain ⟨hzero, hne⟩ := h.current k' hk'
    exact ⟨hzero, fun hnil => hne (modify_eq_nil_iff.1 hnil)⟩
  case unbuilt =>
    intro hnone
    have hnil := h.unbuilt hnone
    rw [hnil, modify_nil]
  case states =>
    intro state' hstate'
    obtain ⟨state, hstate, hlt, hle⟩ := hbuilt state' hstate'
    exact ⟨hlt, fun w hw => le_trans ((h.states state hstate).2 w hw) hle⟩
  case logged => exact h.logged
  case calls =>
    intro i
    refine (h.calls i).of_eq rfl rfl ?_
    intro state' hstate'
    obtain ⟨state, hstate, -, hle⟩ := hbuilt state' hstate'
    exact ⟨state, hstate, hle⟩
  case syncs => exact h.syncs

theorem Inv.modify_of_eq (h : s.Inv)
    (hf : ∀ state, (f state).logStartOffset = state.logStartOffset) :
    Inv { s with built := s.built.modify k f } := by
  apply h.modify
  intro state hstate
  rw [hf]
  exact ⟨(h.states state (mem_of_getElem? hstate)).1, le_refl _⟩

/-- The first state since the start, at a log start offset that is not below what was returned. -/
theorem Inv.insertState (h : s.Inv) (hnone : s.current = none) (hlt : state.logStartOffset < 2 ^ 63)
    (hreturned : ∀ w ∈ s.returned, w ≤ asI64 state.logStartOffset) : (s.insertState state).Inv := by
  have hnil := h.unbuilt hnone
  have hbuilt : (s.insertState state).built = [state] := by
    rw [DeletablePartition.insertState, hnil, nil_append]
  have hcurrent : (s.insertState state).current = some 0 := by
    rw [DeletablePartition.insertState, hnil, length_nil]
  constructor
  case metadata => exact h.metadata.of_eq rfl rfl rfl
  case single =>
    rw [hbuilt]
    exact le_refl 1
  case current =>
    intro k hk
    rw [hcurrent] at hk
    rw [hbuilt]
    exact ⟨(some.inj hk).symm, cons_ne_nil _ _⟩
  case unbuilt =>
    intro hnone'
    cases hnone'
  case states =>
    intro state' hstate'
    rw [hbuilt] at hstate'
    obtain rfl := mem_singleton.1 hstate'
    exact ⟨hlt, hreturned⟩
  case logged => exact h.logged
  case calls =>
    -- no request holds a state yet, and what the others know is about the time without one
    intro i
    have hcall := h.calls i
    have hcalls : (s.insertState state).calls i = s.calls i := rfl
    rw [hcalls]
    cases hphase : s.calls i with rw [hphase] at hcall
    | idle | creating | done => trivial
    | listing =>
      intro hnone'
      cases hnone'
    | persisting _ lso | building _ lso =>
      refine ⟨hcall.1, hcall.2.1, ?_⟩
      intro hnone'
      cases hnone'
    | holding k =>
      cases hnone.symm.trans hcall
    | storing k newLso =>
      cases hnone.symm.trans hcall.1
    | stored newLso | writing newLso =>
      exact absurd hnone hcall.1
  case syncs => exact h.syncs

/-! ## The metadata store -/

section
variable (h : s.MetadataOk)
include h

/-- An event that both copies apply keeps them in agreement, if it treats the log start offset
alike. -/
theorem MetadataOk.writeAndApply (hsame : lowWatermark (some (f s.offsets)) = lowWatermark (some (f s.logged)))
    (hfits : ∀ offsets : Option (Int × Int), (∀ o ∈ offsets, 0 ≤ o.2 ∧ o.2 < 2 ^ 63) →
      0 ≤ (f offsets).2 ∧ (f offsets).2 < 2 ^ 63) : (s.writeAndApply f).MetadataOk where
  same := hsame
  fits := by
    rintro o ⟨⟩
    exact hfits _ h.fits
  loggedFits := by
    rintro o ⟨⟩
    exact hfits _ h.loggedFits
  segments := h.segments

theorem MetadataOk.setHighWatermark (highWatermark : Int) :
    (s.writeAndApply (setHighWatermark · highWatermark)).MetadataOk := by
  refine h.writeAndApply ?_ fun offsets hoffsets => ?_
  · rw [lowWatermark_setHighWatermark, lowWatermark_setHighWatermark]
    exact h.same
  · cases offsets with
    | none =>
      have hpos : (0 : Int) < 2 ^ 63 := by decide
      exact ⟨le_refl 0, hpos⟩
    | some o => exact hoffsets o rfl

theorem MetadataOk.raiseLogStart (h0 : 0 ≤ newLso) (hlt : newLso < 2 ^ 63) :
    (s.writeAndApply (MetadataState.raiseLogStart · newLso)).MetadataOk := by
  refine h.writeAndApply ?_ fun offsets hoffsets => ?_
  · rw [lowWatermark_raiseLogStart, lowWatermark_raiseLogStart, h.same]
  · cases offsets with
    | none => exact ⟨h0, hlt⟩
    | some o =>
    have hraise : (MetadataState.raiseLogStart (some o) newLso).2 =
        if o.2 < newLso then newLso else o.2 := rfl
    rw [hraise]
    split
    case isTrue => exact ⟨h0, hlt⟩
    case isFalse => exact hoffsets o rfl

/-- A log start offset that the log has is put into memory. -/
theorem MetadataOk.raised (h0 : 0 ≤ lso) (hlt : lso < 2 ^ 63)
    (hlogged : lso ≤ lowWatermark s.logged) :
    MetadataOk { s with offsets := some ((s.offsets.map fun o => (o.1, max o.2 lso)).getD (hw, lso)) } where
  __ := h
  same := by
    have hraised : lowWatermark (some ((s.offsets.map fun o => (o.1, max o.2 lso)).getD (hw, lso))) =
        max (lowWatermark s.offsets) lso := by
      cases s.offsets with
      | none =>
        have hnone : lowWatermark none = 0 := rfl
        have hsome : lowWatermark (some (hw, lso)) = max lso 0 := rfl
        rw [map_none, getD_none]
        omega
      | some o =>
        have hold : lowWatermark (some o) = max o.2 0 := rfl
        have hnew : lowWatermark (some (o.1, max o.2 lso)) = max (max o.2 lso) 0 := rfl
        rw [map_some, getD_some]
        omega
    have hsame := h.same
    dsimp only
    omega
  fits := by
    rintro o ⟨⟩
    cases hoffsets : s.offsets with
    | none => exact ⟨h0, hlt⟩
    | some o =>
    have hfits := h.fits o hoffsets
    rw [map_some, getD_some]
    omega

end

theorem putPartitionOffset_frame (s : DeletablePartition) (hw lso : Int) (ok : Bool) :
    (s.putPartitionOffset hw lso ok).built = s.built ∧ (s.putPartitionOffset hw lso ok).current = s.current ∧
      (s.putPartitionOffset hw lso ok).returned = s.returned := by
  rw [DeletablePartition.putPartitionOffset]
  split_ifs <;> exact ⟨rfl, rfl, rfl⟩

theorem Inv.putPartitionOffset (h : s.Inv) (h0 : 0 ≤ lso) (hlt : lso < 2 ^ 63)
    (hlogged : lso ≤ lowWatermark s.logged) (ok : Bool) : (s.putPartitionOffset hw lso ok).Inv := by
  rw [DeletablePartition.putPartitionOffset]
  split
  case isTrue => exact h
  case isFalse =>
  split
  case isTrue =>
    have hsame := lowWatermark_setHighWatermark s.logged hw
    refine h.of_metadata ((h.metadata.setHighWatermark hw).raised h0 hlt ?_) rfl rfl rfl rfl h.syncs ?_
    · exact le_trans hlogged (le_of_eq hsame.symm)
    · exact le_of_eq hsame.symm
  case isFalse =>
    exact h.of_metadata (h.metadata.raised h0 hlt hlogged) rfl rfl rfl rfl h.syncs (le_refl _)

/-! ## Runs -/

theorem asI64_lt (n : Nat) : asI64 n < 2 ^ 63 := by
  have hfits := (fits_wrap 8 n).2
  rw [asI64]
  omega

theorem newLowWatermark_bounds (h : newLowWatermark state requestedOffset = some newLso) :
    0 ≤ newLso ∧ newLso < 2 ^ 63 := by
  rw [newLowWatermark, ite_none_left_eq_some] at h
  obtain ⟨hrange, h⟩ := h
  have hhigh := asI64_lt state.highWatermark
  have hlow := asI64_lt state.logStartOffset
  have h := some.inj h
  omega

theorem segmentsStart_bounds {segments : List (Int × Int)}
    (h : ∀ segment ∈ segments, 0 ≤ segment.1 ∧ segment.1 < 2 ^ 63) :
    0 ≤ segmentsStart segments ∧ segmentsStart segments < 2 ^ 63 := by
  rw [segmentsStart]
  cases hmin : (segments.map (·.1)).min? with
  | none => exact ⟨le_refl 0, by decide⟩
  | some first =>
    obtain ⟨segment, hsegment, rfl⟩ := mem_map.1 (min?_mem hmin)
    exact h segment hsegment

theorem lowWatermark_some (h : 0 ≤ o.2) : lowWatermark (some o) = o.2 :=
  max_eq_left h

section
variable (h : s.Inv)
include h

/-- Without a state, what was returned is not above the metadata store's low watermark. -/
theorem Inv.returned_le_offsets (hw : w ∈ s.returned) : w ≤ lowWatermark s.offsets := by
  rw [h.metadata.same]
  exact h.logged w hw

theorem Inv.returned_le_logStart (hw : w ∈ s.returned) : w ≤ s.getLogStartOffset := by
  rw [getLogStartOffset]
  cases hstate : s.current.bind (s.built[·]?) with
  | none => exact h.returned_le_offsets hw
  | some state =>
    obtain ⟨k, -, hbuilt⟩ := bind_eq_some_iff.1 hstate
    exact (h.states state (mem_of_getElem? hbuilt)).2 w hw

theorem Inv.setUpdate : (s.setUpdate j phase).Inv :=
  h.of_metadata (h.metadata.of_eq rfl rfl rfl) rfl rfl rfl rfl
    h.syncs (le_refl _)

theorem Inv.stored (hcall : s.CallOk (.storing k newLso))
    (hle : ∀ state ∈ s.built[k]?, asI64 state.logStartOffset ≤ newLso) :
    ({ s with built := s.built.modify k ({ · with logStartOffset := asU64 newLso }) }.setCall i
      (.stored newLso)).Inv := by
  obtain ⟨hcurrent, h0, hlt⟩ := hcall
  have hcast := asI64_asU64 h0 hlt
  obtain ⟨hfits, -⟩ := logStartOffset_new 0 h0 hlt
  apply Inv.setCall
  · apply h.modify
    intro state hstate
    refine ⟨hfits, ?_⟩
    rw [hcast]
    exact hle state hstate
  · refine ⟨by rw [hcurrent]; exact some_ne_none k, h0, hlt, ?_⟩
    -- the state that is stored to is the only one
    obtain ⟨rfl, hne⟩ := h.current k hcurrent
    obtain ⟨state, hstate⟩ := length_eq_one_iff.1 (le_antisymm h.single (length_pos_iff.2 hne))
    intro state' hstate'
    rw [hstate] at hstate'
    obtain rfl := mem_singleton.1 hstate'
    exact le_of_eq hcast.symm

theorem Inv.return (hcall : s.CallOk (.stored newLso)) (hlogged : newLso ≤ lowWatermark s.logged) :
    Inv { s.setCall i .done with returned := s.returned ++ [newLso] } := by
  obtain ⟨hcurrent, h0, hlt, hstates⟩ := hcall
  have hdone : (s.setCall i .done).Inv := h.setCall trivial
  constructor
  case metadata => exact h.metadata.of_eq rfl rfl rfl
  case single => exact h.single
  case current => exact h.current
  case unbuilt => exact h.unbuilt
  case states =>
    intro state hstate
    obtain ⟨hfits, hreturned⟩ := h.states state hstate
    refine ⟨hfits, ?_⟩
    exact forall_mem_concat.2 ⟨hreturned, (hstates state hstate)⟩
  case logged =>
    exact forall_mem_concat.2 ⟨h.logged, hlogged⟩
  case calls =>
    intro i'
    have hcall := hdone.calls i'
    -- there is a state, so that nothing depends on what was returned
    revert hcall
    cases (s.setCall i .done).calls i' with
    | idle | creating | done => exact fun _ => trivial
    | listing => exact fun _ hnone => absurd hnone hcurrent
    | persisting _ lso | building _ lso =>
      exact fun hok => ⟨hok.1, hok.2.1, fun hnone => absurd hnone hcurrent⟩
    | holding k | storing k newLso | stored newLso | writing newLso => exact fun hok => hok
  case syncs => exact h.syncs

theorem Inv.restart (hclean : restored = none ∨ lowWatermark s.logged = 0) :
    Inv { s with
      built := (restored.map (new · 0)).toList
      current := restored.map fun _ => 0
      offsets := s.logged
      calls := fun _ => .idle
      updates := fun _ => .idle
      syncs := [] } := by
  constructor
  case metadata => exact ⟨rfl, h.metadata.loggedFits, h.metadata.loggedFits, h.metadata.segments⟩
  case single => exact length_toList_le
  case current =>
    intro k hk
    cases restored with
    | none => cases hk
    | some watermark =>
      cases hk
      exact ⟨rfl, cons_ne_nil _ _⟩
  case unbuilt =>
    intro hnone
    rw [map_eq_none_iff.1 hnone]
    rfl
  case states =>
    intro state hstate
    cases restored with
    | none => cases hstate
    | some watermark =>
    obtain rfl := mem_singleton.1 hstate
    obtain ⟨hlt, hzero⟩ := logStartOffset_new watermark (le_refl 0) (by decide)
    refine ⟨hlt, ?_⟩
    intro w hw
    rw [hzero]
    rcases hclean with hnone | hlow
    · cases hnone
    · exact le_trans (h.logged w hw) (le_of_eq hlow)
  case logged => exact h.logged
  case calls => exact fun _ => trivial
  case syncs => exact forall_mem_nil _

/-- A request that creates the state reads the offsets of the metadata store, or finds that it has
none. -/
theorem Inv.callOk_offsets :
    s.CallOk (s.offsets.elim .listing fun (hw, lso) => .building hw lso) := by
  cases hoffsets : s.offsets with
  | none =>
    intro _ w hw
    have hle := h.returned_le_offsets hw
    rw [hoffsets] at hle
    exact hle
  | some o =>
    obtain ⟨h0, hlt⟩ := h.metadata.fits o hoffsets
    refine ⟨h0, hlt, ?_⟩
    intro _ w hw
    have hle := h.returned_le_offsets hw
    rw [hoffsets, lowWatermark_some h0] at hle
    exact hle

theorem Inv.compared (hcall : s.CallOk (.stored newLso))
    (hoffsets : s.offsets = some o) (hge : ¬ o.2 < newLso) :
    Inv { s.setCall i .done with returned := s.returned ++ [newLso] } := by
  apply h.return hcall
  rw [← h.metadata.same, hoffsets, lowWatermark_some (h.metadata.fits o hoffsets).1]
  omega

theorem Inv.written (hcall : s.CallOk (.writing newLso)) :
    Inv { (s.writeAndApply (MetadataState.raiseLogStart · newLso)).setCall i .done with
      returned := s.returned ++ [newLso] } := by
  have hraise := lowWatermark_raiseLogStart s.logged newLso
  have hwritten : (s.writeAndApply (MetadataState.raiseLogStart · newLso)).Inv := by
    refine h.of_metadata (h.metadata.raiseLogStart hcall.2.1 hcall.2.2.1) rfl rfl rfl rfl h.syncs ?_
    exact le_trans (le_max_left _ _) (le_of_eq hraise.symm)
  apply hwritten.return
  · exact hcall.of_eq rfl rfl fun state hstate => ⟨state, hstate, le_refl _⟩
  · exact le_trans (le_max_right _ _) (le_of_eq hraise.symm)

theorem Inv.readSync (hstate : state ∈ s.built) :
    Inv { s with syncs := s.syncs ++ [(asI64 state.highWatermark, asI64 state.logStartOffset)] } := by
  have hlt := (h.states state hstate).1
  refine h.of_metadata (h.metadata.of_eq rfl rfl rfl) rfl rfl rfl rfl ?_ (le_refl _)
  refine forall_mem_concat.2 ⟨h.syncs, ?_⟩
  dsimp only
  rw [asI64, wrap_eq (fits_of_lt hlt)]
  omega

theorem Inv.writeSync (ho : s.syncs[n]? = some o)
    (hlogged : o.2 ≤ lowWatermark s.logged) (ok : Bool) :
    Inv { s.putPartitionOffset o.1 o.2 ok with syncs := s.syncs.eraseIdx n } := by
  obtain ⟨h0, hlt⟩ := h.syncs o (mem_of_getElem? ho)
  have hput : (s.putPartitionOffset o.1 o.2 ok).Inv := h.putPartitionOffset h0 hlt hlogged ok
  refine hput.of_metadata (hput.metadata.of_eq rfl rfl rfl) rfl rfl rfl rfl ?_ (le_refl _)
  exact fun o' ho' => h.syncs o' (mem_of_mem_eraseIdx ho')

theorem Inv.register (hbounds : 0 ≤ first ∧ first < 2 ^ 63) :
    Inv { s with segments := s.segments ++ [(first, last)] } := by
  refine h.of_metadata ?_ rfl rfl rfl rfl h.syncs (le_refl _)
  refine ⟨h.metadata.same, h.metadata.fits, h.metadata.loggedFits, ?_⟩
  exact forall_mem_concat.2 ⟨h.metadata.segments, hbounds⟩

end

theorem Inv.step {a : Action} (h : s.Inv) (hok : KeepsLowWatermark s a) (hs : s.step a = some s') :
    s'.Inv := by
  cases a with simp only [DeletablePartition.step] at hs
  | lookup i =>
    split at hs <;> cases hs
    apply h.setCall
    cases hcurrent : s.current with
    | none => trivial
    | some k => exact hcurrent
  | getPartitionOffset i =>
    split at hs <;> cases hs
    exact h.setCall h.callOk_offsets
  | listSegments i =>
    split at hs <;> cases hs
    rename_i hphase
    apply h.setCall
    have hcall := h.calls i
    rw [hphase] at hcall
    obtain ⟨h0, hlt⟩ := segmentsStart_bounds h.metadata.segments
    exact ⟨h0, hlt, fun hnone w hw => le_trans (hcall hnone w hw) h0⟩
  | updatePartitionOffset i ok =>
    split at hs <;> cases hs
    rename_i hw lso hphase
    have hcall := h.calls i
    rw [hphase] at hcall
    have hlogged : lso ≤ lowWatermark s.logged := hok lso (by rw [hphase]; rfl)
    apply (h.putPartitionOffset hcall.1 hcall.2.1 hlogged ok).setCall
    obtain ⟨hbuilt, hcurrent, hreturned⟩ := putPartitionOffset_frame s hw lso ok
    refine ⟨hcall.1, hcall.2.1, ?_⟩
    rw [hcurrent, hreturned]
    exact hcall.2.2
  | insert i =>
    split at hs <;> cases hs
    rename_i hw lso hphase
    obtain ⟨h0, hlt, hread⟩ : s.CallOk (.building hw lso) := hphase ▸ h.calls i
    obtain ⟨hfits, hlogStart⟩ := logStartOffset_new hw h0 hlt
    have hinserted : (s.insertState (.new hw lso)).Inv := by
      apply h.insertState hok hfits
      rw [hlogStart]
      exact hread hok
    exact hinserted.setCall rfl
  | fail i =>
    cases hs
    exact h.setCall trivial
  | produce i recordCount =>
    split at hs <;> cases hs
    rename_i k hphase
    apply Inv.setCall
    · exact h.modify_of_eq fun _ => rfl
    · trivial
  | load i requestedOffset =>
    split at hs
    case h_2 => cases hs
    case h_1 k hphase =>
    obtain ⟨state, hstate, rfl⟩ := map_eq_some_iff.1 hs
    apply h.setCall
    have hcall := h.calls i
    rw [hphase] at hcall
    cases hnew : newLowWatermark state requestedOffset with
    | none => trivial
    | some newLso => exact ⟨hcall, newLowWatermark_bounds hnew⟩
  | store i =>
    split at hs <;> cases hs
    rename_i k newLso hphase
    refine h.stored (hphase ▸ h.calls i) fun state hstate => ?_
    exact hok (k, newLso) (by rw [hphase]; rfl) state hstate
  | checkStart i =>
    split at hs
    case h_2 => cases hs
    case h_1 newLso hphase =>
    have hcall : s.CallOk (.stored newLso) := hphase ▸ h.calls i
    cases hoffsets : s.offsets with rw [hoffsets] at hs
    | none =>
      cases hs
      exact h.setCall hcall
    | some o =>
    dsimp only at hs
    split at hs
    case isTrue =>
      cases hs
      exact h.setCall hcall
    case isFalse hge =>
      cases hs
      exact h.compared hcall hoffsets hge
  | writeStart i ok =>
    split at hs
    case h_2 => cases hs
    case h_1 newLso hphase =>
    have hcall : s.CallOk (.writing newLso) := hphase ▸ h.calls i
    cases ok with
    | false =>
      cases hs
      exact h.setCall trivial
    | true =>
      cases hs
      exact h.written hcall
  | updateHighWatermark j highWatermark =>
    split at hs
    case h_1 k hphase hcurrent =>
      cases hs
      apply Inv.setUpdate
      exact h.modify_of_eq fun _ => rfl
    case h_2 =>
      cases hs
      exact h.setUpdate
    case h_3 => cases hs
  | insertUpdate j =>
    split at hs <;> cases hs
    rename_i highWatermark hphase
    apply Inv.setUpdate
    obtain ⟨hlt, hzero⟩ := logStartOffset_new highWatermark (le_refl 0) (by decide)
    apply h.insertState hok.1 hlt
    intro w hw
    rw [hzero]
    exact le_trans (h.returned_le_offsets hw) (le_of_eq hok.2)
  | readSync =>
    obtain ⟨state, hstate, rfl⟩ := map_eq_some_iff.1 hs
    obtain ⟨k, -, hstate⟩ := bind_eq_some_iff.1 hstate
    exact h.readSync (mem_of_getElem? hstate)
  | writeSync n ok =>
    obtain ⟨o, ho, rfl⟩ := map_eq_some_iff.1 hs
    exact h.writeSync ho (hok o ho) ok
  | flush highWatermark ok =>
    cases hs
    exact h.putPartitionOffset (le_refl 0) (by decide) (le_max_right _ _) ok
  | register first last =>
    obtain ⟨hbounds, rfl⟩ := of_guard hs
    exact h.register hbounds
  | restart restored =>
    cases hs
    exact h.restart hok

theorem Inv.init : machine.init.Inv where
  metadata := ⟨rfl, fun _ ho => (by cases ho), fun _ ho => (by cases ho), forall_mem_nil _⟩
  single := Nat.zero_le 1
  current := fun _ hk => by cases hk
  unbuilt := fun _ => rfl
  states := forall_mem_nil _
  logged := forall_mem_nil _
  calls := fun _ => trivial
  syncs := forall_mem_nil _

/-- A returned low watermark stays in force: a fetch below it is out of range. -/
theorem returned_stays_deleted (h : Reaches machine KeepsLowWatermark s) (hw : w ∈ s.returned) :
    w ≤ s.getLogStartOffset ∧ ∀ fetchOffset, fetchOffset < w → s.checkOffsetRange fetchOffset = some 1 := by
  have hinv : s.Inv := h.invariant (I := Inv) Inv.init fun _ _ _ hs hok hstep => hs.step hok hstep
  have hle := hinv.returned_le_logStart hw
  refine ⟨hle, ?_⟩
  intro fetchOffset hlt
  exact if_pos (lt_of_lt_of_le hlt hle)

def produceTen : List Action :=
  [.lookup 0, .getPartitionOffset 0, .listSegments 0, .updatePartitionOffset 0 true, .insert 0, .produce 0 10]

/-- Two deletions, a restart that restores no state, and a third deletion. -/
theorem returned_stays_deleted_three : ∃ s, Reaches machine KeepsLowWatermark s ∧ s.returned = [5, 5, 7] ∧
    s.getLogStartOffset = 7 ∧ 7 ≤ s.getLogStartOffset ∧
      ∀ fetchOffset, fetchOffset < 7 → s.checkOffsetRange fetchOffset = some 1 := by
  obtain ⟨s, hs, hreturned, hlogStart⟩ := exists_reaches_of_run machine KeepsLowWatermark
    (produceTen ++ ([.flush 10 true, .lookup 1, .load 1 5, .store 1, .checkStart 1, .writeStart 1 true,
      .lookup 2, .load 2 3, .store 2, .checkStart 2, .restart none, .lookup 3, .getPartitionOffset 3,
      .insert 3, .load 3 7, .store 3, .checkStart 3, .writeStart 3 true] : List Action))
    (fun s => s.returned = [5, 5, 7] ∧ s.getLogStartOffset = 7) (by decide +kernel)
  exact ⟨s, hs, hreturned, hlogStart, returned_stays_deleted hs (by rw [hreturned]; decide)⟩

/-- 5 was returned, and a fetch at 4 is in range: after a restart; after an overlapping deletion to
3; after the sync task has stored 5 before the deletion compares; and after `update_high_watermark`
has built the state. -/
theorem low_watermark_falls :
    (∃ s, Reaches machine Always s ∧ s.returned = [5] ∧ s.built = [⟨10, 10, 0⟩] ∧ lowWatermark s.logged = 5 ∧
      s.getLogStartOffset = 0 ∧ s.checkOffsetRange 4 = none) ∧
    (∃ s, Reaches machine Always s ∧ s.returned = [5] ∧ s.built = [⟨10, 10, 3⟩] ∧ lowWatermark s.logged = 5 ∧
      s.getLogStartOffset = 3 ∧ s.checkOffsetRange 4 = none) ∧
    (∃ s, Reaches machine Always s ∧ s.returned = [5] ∧ s.built = [] ∧ lowWatermark s.logged = 0 ∧
      s.getLogStartOffset = 0 ∧ s.checkOffsetRange 4 = none) ∧
    (∃ s, Reaches machine Always s ∧ s.returned = [5] ∧ s.built = [⟨12, 12, 0⟩] ∧ lowWatermark s.logged = 5 ∧
      s.getLogStartOffset = 0 ∧ s.checkOffsetRange 4 = none) := by
  refine ⟨?_, ?_, ?_, ?_⟩
  · exact exists_reaches_of_run machine Always
      (produceTen ++ ([.lookup 1, .load 1 5, .store 1, .checkStart 1, .writeStart 1 true,
        .restart (some 10)] : List Action)) _ (by decide +kernel)
  · exact exists_reaches_of_run machine Always
      (produceTen ++ ([.lookup 1, .lookup 2, .load 1 5, .load 2 3, .store 1, .checkStart 1,
        .writeStart 1 true, .store 2] : List Action)) _ (by decide +kernel)
  · exact exists_reaches_of_run machine Always
      (produceTen ++ ([.lookup 1, .load 1 5, .store 1, .readSync, .writeSync 0 true,
        .checkStart 1, .restart none] : List Action)) _ (by decide +kernel)
  · exact exists_reaches_of_run machine Always
      (produceTen ++ ([.lookup 1, .load 1 5, .store 1, .checkStart 1, .writeStart 1 true,
        .restart none, .updateHighWatermark 0 12, .insertUpdate 0] : List Action)) _ (by decide +kernel)

end DeletablePartition

end ChronikStream
