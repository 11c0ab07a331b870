import ChronikStream.Lib.Run
import Mathlib.Algebra.Group.Int.Defs
import Mathlib.Algebra.Group.Nat.Defs
import Mathlib.Data.List.Perm.Basic
import Mathlib.Tactic.Common

/-!
# The in-memory state of a partition and the offsets reserved from it

Reservations from one `PartitionState` never overlap, but `get_or_create_partition_state` and
`update_high_watermark` build a state over several awaits and then replace what is there, so two
requests can reserve the same offsets (`offsets_reserved_twice`). The ranges are disjoint where a
state is inserted only if there is none (`reserved_disjoint`).
-/

namespace ChronikStream

open Machine List

def asU64 (x : Int) : Nat := (x % 2 ^ 64).toNat

/-- What the reservation of offsets depends on of a `PartitionState`. -/
structure PartitionState where
  nextOffset : Nat
  highWatermark : Nat
  logStartOffset : Nat
  deriving DecidableEq

namespace PartitionState

/-- The state that both creators build. -/
def new (highWatermark logStartOffset : Int) : PartitionState :=
  ⟨asU64 highWatermark, asU64 highWatermark, asU64 logStartOffset⟩

/-- Both fields, each monotonic. -/
def raiseWatermark (state : PartitionState) (watermark : Nat) : PartitionState :=
  { state with
    highWatermark := max state.highWatermark watermark
    nextOffset := max state.nextOffset watermark }

/-- `fetch_add` on the next offset, which wraps. -/
def reserve (state : PartitionState) (recordCount : Nat) : PartitionState :=
  { state with nextOffset := (state.nextOffset + recordCount) % 2 ^ 64 }

end PartitionState

structure ReservedRange where
  baseOffset : Nat
  recordCount : Nat
  deriving DecidableEq

namespace ReservedRange

def Holds (r : ReservedRange) (offset : Nat) : Prop :=
  r.baseOffset ≤ offset ∧ offset < r.baseOffset + r.recordCount
deriving Decidable

def Disjoint (r r' : ReservedRange) : Prop := ∀ offset, ¬ (r.Holds offset ∧ r'.Holds offset)

end ReservedRange

/-! ## The steps -/

inductive ProducePhase where
  | idle
  /-- It has found no state. -/
  | creating
  /-- The metadata store has no offsets for the partition. -/
  | listing
  /-- It has computed the offsets from the segments and persists them. -/
  | persisting (highWatermark logStartOffset : Int)
  | building (highWatermark logStartOffset : Int)
  /-- It has been given the state built at this position. -/
  | holding (state : Nat)
  | done

inductive UpdatePhase where
  | idle
  /-- It has found no state and creates the segment writer. -/
  | creating (highWatermark : Int)
  | done

/-- The states of one partition, what a new one is built from, and the requests by their numbers. -/
structure PartitionStates where
  built : List PartitionState
  current : Option Nat
  offsets : Option (Int × Int)
  segments : List (Int × Int)
  produces : Nat → ProducePhase
  updates : Nat → UpdatePhase
  reserved : List ReservedRange

namespace PartitionStates

section
variable (s : PartitionStates)

def setProduce (i : Nat) (phase : ProducePhase) : PartitionStates :=
  { s with produces := Function.update s.produces i phase }

def setUpdate (j : Nat) (phase : UpdatePhase) : PartitionStates :=
  { s with updates := Function.update s.updates j phase }

/-- `partition_states.insert`: the new state replaces the current one. -/
def insert (state : PartitionState) : PartitionStates :=
  { s with built := s.built ++ [state], current := some s.built.length }

def segmentsEnd (segments : List (Int × Int)) : Int := ((segments.map (·.2 + 1)).max?).getD 0

def segmentsStart (segments : List (Int × Int)) : Int := ((segments.map (·.1)).min?).getD 0

inductive Action where
  | lookup (i : Nat)
  | getPartitionOffset (i : Nat)
  | listSegments (i : Nat)
  | updatePartitionOffset (i : Nat) (ok : Bool)
  | insert (i : Nat)
  | reserve (i recordCount : Nat)
  /-- A request ends with an error: of the topic, of the segment writer, of the metadata, of the batch. -/
  | fail (i : Nat)
  /-- A call of `update_high_watermark` up to its first await. -/
  | updateHighWatermark (j : Nat) (highWatermark : Int)
  | insertUpdate (j : Nat)
  | failUpdate (j : Nat)
  /-- Others change the metadata. -/
  | metadata (offsets : Option (Int × Int)) (segments : List (Int × Int))

/-- One await-free section. -/
def step : Action → Option PartitionStates
  | .lookup i =>
    match s.produces i with
    | .idle => some (s.setProduce i (s.current.elim .creating .holding))
    | _ => none
  | .getPartitionOffset i =>
    match s.produces i with
    | .creating => some (s.setProduce i (s.offsets.elim .listing fun (hw, lso) => .building hw lso))
    | _ => none
  | .listSegments i =>
    match s.produces i with
    | .listing => some (s.setProduce i (.persisting (segmentsEnd s.segments) (segmentsStart s.segments)))
    | _ => none
  | .updatePartitionOffset i ok =>
    match s.produces i with
    | .persisting hw lso =>
      -- a failure is logged
      some ({ s with offsets := if ok then some (hw, lso) else s.offsets }.setProduce i
        (.building hw lso))
    | _ => none
  | .insert i =>
    match s.produces i with
    | .building hw lso => some ((s.insert (.new hw lso)).setProduce i (.holding s.built.length))
    | _ => none
  | .reserve i recordCount =>
    match s.produces i with
    | .holding k => s.built[k]?.map fun state =>
      { s.setProduce i .done with
        built := s.built.set k (state.reserve recordCount)
        reserved := s.reserved ++ [⟨state.nextOffset, recordCount⟩] }
    | _ => none
  | .fail i => some (s.setProduce i .done)
  | .updateHighWatermark j highWatermark =>
    match s.updates j, s.current with
    | .idle, some k => some
      ({ s with built := s.built.modify k (·.raiseWatermark (asU64 (max highWatermark 0))) }.setUpdate j
        .done)
    | .idle, none => some (s.setUpdate j (.creating highWatermark))
    | _, _ => none
  | .insertUpdate j =>
    match s.updates j with
    | .creating highWatermark => some ((s.insert (.new highWatermark 0)).setUpdate j .done)
    | _ => none
  | .failUpdate j => some (s.setUpdate j .done)
  | .metadata offsets segments => some { s with offsets := offsets, segments := segments }

/-- A partition that was not used since the start of the broker. -/
def machine (offsets : Option (Int × Int)) (segments : List (Int × Int)) :
    Machine PartitionStates Action where
  init := ⟨[], none, offsets, segments, fun _ => .idle, fun _ => .idle, []⟩
  step := step

def heldState (i : Nat) : Option PartitionState :=
  match s.produces i with
  | .holding k => s.built[k]?
  | _ => none

/-- A state is inserted only where there is none, and the offsets of a reservation fit into 64 bits. -/
def SharesState : Action → Prop
  | .insert _ | .insertUpdate _ => s.current = none
  | .reserve i recordCount => ∀ state ∈ s.heldState i, state.nextOffset + recordCount < 2 ^ 64
  | _ => True

end

instance : DecidableRel SharesState := fun _ _ => by
  unfold SharesState
  split <;> infer_instance

/-! ## One state for all requests -/

/-- At most one state is built, and what was reserved lies below its next offset. -/
structure OneState (s : PartitionStates) : Prop where
  single : s.built.length ≤ 1
  unbuilt : s.current = none → s.built = [] ∧ s.reserved = []
  below : ∀ state ∈ s.built, ∀ r ∈ s.reserved, r.baseOffset + r.recordCount ≤ state.nextOffset
  disjoint : s.reserved.Pairwise ReservedRange.Disjoint

variable {s s' : PartitionStates} {state : PartitionState}

section
variable (h : s.OneState)
include h

theorem OneState.of_eq (hbuilt : s'.built = s.built) (hcurrent : s'.current = s.current)
    (hreserved : s'.reserved = s.reserved) : s'.OneState := by
  refine ⟨?_, ?_, ?_, ?_⟩
  · rw [hbuilt]
    exact h.single
  · rw [hbuilt, hcurrent, hreserved]
    exact h.unbuilt
  · rw [hbuilt, hreserved]
    exact h.below
  · rw [hreserved]
    exact h.disjoint

theorem OneState.insert (hcurrent : s.current = none) (state : PartitionState) :
    (s.insert state).OneState := by
  obtain ⟨hbuilt, hreserved⟩ := h.unbuilt hcurrent
  refine ⟨?_, fun hnone => (by cases hnone), ?_, h.disjoint⟩
  · simp [PartitionStates.insert, hbuilt]
  · simp [PartitionStates.insert, hreserved]

theorem OneState.raiseWatermark (k watermark : Nat) :
    { s with built := s.built.modify k (·.raiseWatermark watermark) }.OneState := by
  refine ⟨?_, ?_, ?_, h.disjoint⟩
  · simpa using h.single
  · intro hcurrent
    obtain ⟨hbuilt, hreserved⟩ := h.unbuilt hcurrent
    simp [hbuilt, hreserved]
  · intro state' hstate r hr
    obtain ⟨n, hn⟩ := mem_iff_getElem?.1 hstate
    rw [getElem?_modify] at hn
    obtain ⟨state, hprev, rfl⟩ := Option.map_eq_some_iff.1 hn
    have hle := h.below state (mem_of_getElem? hprev) r hr
    split
    · exact Nat.le_trans hle (Nat.le_max_left _ _)
    · exact hle

/-- A reservation starts at the next offset, which is above all others, and moves it on. -/
theorem OneState.reserve (hstate : s.built[k]? = some state)
    (hfits : state.nextOffset + recordCount < 2 ^ 64) :
    OneState { s with
      built := s.built.set k (state.reserve recordCount)
      reserved := s.reserved ++ [⟨state.nextOffset, recordCount⟩] } := by
  have hmem := mem_of_getElem? hstate
  have hnext : (state.reserve recordCount).nextOffset = state.nextOffset + recordCount :=
    Nat.mod_eq_of_lt hfits
  refine ⟨?_, ?_, ?_, ?_⟩
  · simpa using h.single
  · intro hcurrent
    rw [(h.unbuilt hcurrent).1] at hmem
    cases hmem
  · intro state' hstate' r hr
    -- the state reserved from is the only one
    have hset : s.built.set k (state.reserve recordCount) = [state.reserve recordCount] := by
      obtain ⟨single, hsingle⟩ := length_eq_one_iff.1
        (Nat.le_antisymm h.single (length_pos_of_mem hmem))
      have hk : k = 0 := by
        have := (List.getElem?_eq_some_iff.1 hstate).1
        simp only [hsingle, length_singleton] at this
        omega
      rw [hsingle, hk, set_cons_zero]
    obtain rfl := mem_singleton.1 (hset ▸ hstate')
    rw [hnext]
    rcases mem_concat.1 hr with hr | rfl
    · have := h.below state hmem r hr
      omega
    · exact Nat.le_refl _
  · refine pairwise_concat.2 ⟨h.disjoint, fun r hr => ?_⟩
    rintro offset ⟨hlow, hhigh⟩
    have hbelow := h.below state hmem r hr
    have hlt : offset < state.nextOffset := Nat.lt_of_lt_of_le hlow.2 hbelow
    exact absurd hhigh.1 (Nat.not_le.2 hlt)

theorem OneState.step (hok : s.SharesState a) (hstep : s.step a = some s') : s'.OneState := by
  cases a with simp only [PartitionStates.step] at hstep
  | lookup i | getPartitionOffset i | listSegments i | updatePartitionOffset i ok =>
    split at hstep <;> cases hstep
    exact h.of_eq rfl rfl rfl
  | fail _ | failUpdate _ | metadata _ _ =>
    cases hstep
    exact h.of_eq rfl rfl rfl
  | insert i | insertUpdate i =>
    split at hstep <;> cases hstep
    exact (h.insert hok _).of_eq rfl rfl rfl
  | reserve i recordCount =>
    split at hstep
    · rename_i k hphase
      obtain ⟨state, hstate, rfl⟩ := Option.map_eq_some_iff.1 hstep
      have hheld : s.heldState i = some state := by rw [heldState, hphase, ← hstate]
      exact (h.reserve hstate (hok state hheld)).of_eq rfl rfl rfl
    · cases hstep
  | updateHighWatermark j highWatermark =>
    split at hstep
    · cases hstep
      exact (h.raiseWatermark _ _).of_eq rfl rfl rfl
    · cases hstep
      exact h.of_eq rfl rfl rfl
    · cases hstep

end

/-- No offset is reserved twice in a run of any requests that inserts a state only where there is none. -/
theorem reserved_disjoint (offsets : Option (Int × Int)) (segments : List (Int × Int))
    (h : Reaches (machine offsets segments) SharesState s) :
    s.reserved.Pairwise ReservedRange.Disjoint := by
  have hone : s.OneState := by
    refine h.invariant ?_ fun s a s' hs hok hstep => hs.step hok hstep
    exact ⟨Nat.zero_le _, fun _ => ⟨rfl, rfl⟩, fun _ hmem => (by cases hmem), .nil⟩
  exact hone.disjoint

/-- Two requests, the first of which creates the state from the segments; the watermark is raised between
their reservations. -/
theorem reserved_disjoint_two_requests :
    ∃ s, Reaches (machine none [(0, 4)]) SharesState s ∧ s.reserved = [⟨5, 3⟩, ⟨10, 2⟩] ∧
      s.reserved.Pairwise ReservedRange.Disjoint :=
  exists_reaches_and (machine none [(0, 4)]) SharesState
    [.lookup 0, .getPartitionOffset 0, .listSegments 0, .updatePartitionOffset 0 true, .insert 0,
      .lookup 1, .reserve 0 3, .updateHighWatermark 0 10, .reserve 1 2]
    (by decide) fun _ hreaches => reserved_disjoint _ _ hreaches

/-- Two first requests find no state, build one each and reserve the same offset. -/
theorem offsets_reserved_twice :
    ¬ ∀ offsets segments s, Reaches (machine offsets segments) Always s →
      s.reserved.Pairwise ReservedRange.Disjoint := by
  intro h
  obtain ⟨s, hreaches, hs⟩ := exists_reaches_of_run (machine (some (0, 0)) []) Always
    [.lookup 0, .lookup 1, .getPartitionOffset 0, .insert 0, .reserve 0 1, .getPartitionOffset 1,
      .insert 1, .reserve 1 1]
    (fun s => s.reserved = [⟨0, 1⟩, ⟨0, 1⟩]) (by decide)
  have hpairwise := h _ _ s hreaches
  rw [hs] at hpairwise
  have hdisjoint : ReservedRange.Disjoint ⟨0, 1⟩ ⟨0, 1⟩ := (pairwise_cons.1 hpairwise).1 _ (.head _)
  exact hdisjoint 0 ⟨by decide, by decide⟩

end PartitionStates

/-! ## Single atomic operations -/

/-- `raise_watermark` and `reset_offsets_after_truncation`: one operation on the high watermark, and
then the same one on the next offset. -/
inductive OffsetCall where
  | raise (watermark : Nat)
  | reset (newLogEnd : Int)
  deriving DecidableEq

def OffsetCall.apply : OffsetCall → Nat → Nat
  | .raise watermark, offset => max offset watermark
  | .reset newLogEnd, _ => asU64 (max newLogEnd 0)

namespace OffsetCall

def isRaise : OffsetCall → Bool
  | .raise _ => true
  | .reset _ => false

/-- The operations of the two calls may come in either order. -/
def Commutes (c d : OffsetCall) : Prop := c = d ∨ c.isRaise ∧ d.isRaise
deriving Decidable

theorem Commutes.apply_comm (h : Commutes c d) (offset : Nat) :
    d.apply (c.apply offset) = c.apply (d.apply offset) := by
  rcases h with rfl | ⟨hc, hd⟩
  · rfl
  · cases c <;> cases hc
    cases d <;> cases hd
    exact Nat.max_right_comm ..

theorem apply_mono (call : OffsetCall) (h : m ≤ n) : call.apply m ≤ call.apply n := by
  cases call with
  | raise =>
    dsimp only [apply]
    omega
  | reset => exact Nat.le_refl _

theorem foldr_apply_perm {calls l : List OffsetCall} (hcomm : ∀ c ∈ calls, ∀ d ∈ calls, Commutes c d)
    (h : calls ~ l) (offset : Nat) : calls.foldr apply offset = l.foldr apply offset :=
  h.foldr_eq' (fun c hc d hd => (hcomm c hc d hd).apply_comm) offset

end OffsetCall

/-- A state, the calls whose second operation is still to come, and the base offsets that produces
were given, each with the high watermark at that step. -/
structure OffsetCells where
  state : PartitionState
  inProgress : List OffsetCall
  given : List (Nat × Nat)

namespace OffsetCells

inductive Action where
  | begin (call : OffsetCall)
  | finish (i : Nat)
  | reserve (recordCount : Nat)

def step (s : OffsetCells) : Action → Option OffsetCells
  | .begin call => some
    { s with
      state.highWatermark := call.apply s.state.highWatermark
      inProgress := s.inProgress ++ [call] }
  | .finish i => s.inProgress[i]?.map fun call =>
    { s with
      state.nextOffset := call.apply s.state.nextOffset
      inProgress := s.inProgress.eraseIdx i }
  | .reserve recordCount => some
    { s with
      state := s.state.reserve recordCount
      given := s.given ++ [(s.state.nextOffset, s.state.highWatermark)] }

def machine (highWatermark : Int) : Machine OffsetCells Action :=
  ⟨⟨.new highWatermark 0, [], []⟩, step⟩

/-- Only calls that commute overlap, a reservation comes between the two operations of none, and the
next offset does not wrap. -/
def Uninterrupted (s : OffsetCells) : Action → Prop
  | .begin call => ∀ c ∈ s.inProgress, c.Commutes call
  | .finish _ => True
  | .reserve recordCount => s.inProgress = [] ∧ s.state.nextOffset + recordCount < 2 ^ 64

instance : DecidableRel Uninterrupted := fun _ _ => by
  unfold Uninterrupted
  split <;> infer_instance

def GivenAbove (s : OffsetCells) : Prop := ∀ x ∈ s.given, x.2 ≤ x.1
deriving Decidable

/-- The calls in progress, in any order, bring the next offset to the high watermark. -/
structure Inv (s : OffsetCells) : Prop where
  given : s.GivenAbove
  commute : ∀ c ∈ s.inProgress, ∀ d ∈ s.inProgress, c.Commutes d
  le : s.state.highWatermark ≤ s.inProgress.foldr OffsetCall.apply s.state.nextOffset

variable {s s' : OffsetCells}

theorem Inv.le_nextOffset (h : s.Inv) (hnone : s.inProgress = []) :
    s.state.highWatermark ≤ s.state.nextOffset := by
  have hle := h.le
  rw [hnone] at hle
  exact hle

theorem Inv.step (h : s.Inv) (hok : s.Uninterrupted a) (hs : s.step a = some s') : s'.Inv := by
  cases a with
  | begin call =>
    cases hs
    have hcomm : ∀ c ∈ s.inProgress ++ [call], ∀ d ∈ s.inProgress ++ [call], c.Commutes d :=
      forall_mem_concat.2 ⟨fun c hc => forall_mem_concat.2 ⟨h.commute c hc, hok c hc⟩,
        forall_mem_concat.2 ⟨fun d hd => (hok d hd).imp .symm .symm, .inl rfl⟩⟩
    refine ⟨h.given, hcomm, ?_⟩
    dsimp only
    rw [OffsetCall.foldr_apply_perm hcomm (perm_append_singleton ..)]
    exact call.apply_mono h.le
  | finish i =>
    obtain ⟨call, hcall, rfl⟩ := Option.map_eq_some_iff.1 hs
    obtain ⟨hi, rfl⟩ := List.getElem?_eq_some_iff.1 hcall
    refine ⟨h.given, fun c hc d hd =>
      h.commute c (mem_of_mem_eraseIdx hc) d (mem_of_mem_eraseIdx hd), ?_⟩
    have hperm := (perm_append_singleton ..).trans (getElem_cons_eraseIdx_perm hi)
    have hle := h.le
    rw [OffsetCall.foldr_apply_perm h.commute hperm.symm, foldr_append] at hle
    exact hle
  | reserve recordCount =>
    cases hs
    obtain ⟨hnone, hlt⟩ := hok
    have hle := h.le_nextOffset hnone
    refine ⟨forall_mem_concat.2 ⟨h.given, hle⟩, h.commute, ?_⟩
    dsimp only
    rw [hnone]
    exact le_of_le_of_eq (Nat.le_add_right_of_le hle) (Nat.mod_eq_of_lt hlt).symm

/-- If only calls that commute overlap, no produce is given an offset below the high watermark, and the
next offset is at least the high watermark whenever no call is in progress. -/
theorem reservation_not_below_watermark {highWatermark : Int}
    (h : Reaches (machine highWatermark) Uninterrupted s) :
    s.GivenAbove ∧ (s.inProgress = [] → s.state.highWatermark ≤ s.state.nextOffset) := by
  have hinit : (machine highWatermark).init.Inv :=
    ⟨forall_mem_nil _, forall_mem_nil _, Nat.le_refl _⟩
  have hinv : s.Inv := h.invariant hinit fun _ _ _ hi hok hs => hi.step hok hs
  exact ⟨hinv.given, hinv.le_nextOffset⟩

theorem reservation_not_below_watermark_raised : ∃ s, Reaches (machine 3) Uninterrupted s ∧
    s.given = [(3, 3), (7, 7)] ∧ s.GivenAbove ∧
    (s.inProgress = [] → s.state.highWatermark ≤ s.state.nextOffset) :=
  exists_reaches_and (machine 3) Uninterrupted
    [.reserve 2, .begin (.raise 7), .begin (.raise 6), .finish 1, .finish 0, .reserve 1,
      .begin (.reset 4), .finish 0]
    (by decide) fun _ hs => reservation_not_below_watermark hs

/-- A produce between the two operations of a raise is given an offset below the watermark; a raise
between the two of a reset leaves the next offset below it. -/
theorem reservation_below_watermark :
    (¬ ∀ highWatermark s, Reaches (machine highWatermark) Always s → s.GivenAbove) ∧
    ¬ ∀ highWatermark s, Reaches (machine highWatermark) Always s → s.inProgress = [] →
      s.state.highWatermark ≤ s.state.nextOffset := by
  constructor
  · intro h
    obtain ⟨s, hs, hbelow⟩ := exists_reaches_of_run (machine 0) Always
      [.begin (.raise 5), .reserve 1] (fun s => ¬ s.GivenAbove) (by decide)
    exact hbelow (h 0 s hs)
  · intro h
    obtain ⟨s, hs, hnone, hlt⟩ := exists_reaches_of_run (machine 0) Always
      [.begin (.reset 0), .begin (.raise 5), .finish 1, .finish 0]
      (fun s => s.inProgress = [] ∧ s.state.nextOffset < s.state.highWatermark) (by decide)
    exact Nat.not_lt.2 (h 0 s hs hnone) hlt

end OffsetCells

end ChronikStream
