import ChronikStream.Metadata.Store
import ChronikStream.Produce.PartitionStates
import ChronikStream.Wal.MaxOffset
import Mathlib.Data.List.Flatten

/-!
# Where a partition goes on after a restart

`recover_wal_watermarks` takes the highest offset of the newest WAL file with a record, else the
watermark in the metadata store; a partition without a state gets one on first use. None of these
need be the end of the log (`acked_offset_reused`). It is where records are appended in the order of
their reservation and deletions leave something newer (`RestoresEnd`, `acked_offset_lt_next`).
-/

namespace ChronikStream

open Machine Metadata List Option

namespace ReservedRange

def endOffset (r : ReservedRange) : Nat := r.baseOffset + r.recordCount

def lastOffset (r : ReservedRange) : Int := r.endOffset - 1

end ReservedRange

/-- `pending` are the records on their way to the WAL, `written` those not acknowledged yet;
`segments` the files, the last of which is appended to if `writing`. `offsets` and `registered` are
in the metadata store. `acked` is ghost state. -/
structure WalPartition where
  state : Option PartitionState
  pending : List ReservedRange
  written : List ReservedRange
  acked : List ReservedRange
  segments : List (List ReservedRange)
  writing : Bool
  offsets : Option (Int × Int)
  registered : List (Int × Int)

namespace WalPartition

inductive Action where
  /-- A request finds no state and creates it; the offsets that come from segments may fail to be
  stored. -/
  | create (persisted : Bool)
  | reserve (recordCount : Nat)
  /-- The commit of one of the pending records. -/
  | write (i : Nat)
  | ack (i : Nat)
  | rotate
  /-- The indexer uploads a file; registering it may fail. -/
  | index (j : Nat) (registers : Bool)
  /-- A file that is not appended to is deleted. -/
  | deleteSegment (j : Nat)
  /-- The flusher or the sync task writes a watermark that it has seen. -/
  | updateOffset (highWatermark : Nat)

def init : WalPartition := ⟨none, [], [], [], [], false, none, []⟩

section
variable (p : WalPartition)

def createdOffsets : Int × Int :=
  p.offsets.getD (PartitionStates.segmentsEnd p.registered, PartitionStates.segmentsStart p.registered)

def getOrCreate : PartitionState :=
  p.state.getD (.new p.createdOffsets.1 p.createdOffsets.2)

/-- The files after an append: to the last one, or to a new one where there is no queue. -/
def appended (r : ReservedRange) : List (List ReservedRange) :=
  if p.writing then p.segments.dropLast ++ [p.segments.getLastD [] ++ [r]] else p.segments ++ [[r]]

/-- The first and the last offset of a file, as the indexer registers it. -/
def segmentRange (segment : List ReservedRange) : Int × Int :=
  (((segment.map fun r => (r.baseOffset : Int)).min?).getD 0, ((segment.map (·.lastOffset)).max?).getD 0)

def step : Action → Option WalPartition
  | .create persisted =>
    if p.state = none then
      some { p with
        state := some p.getOrCreate
        offsets := if persisted then some p.createdOffsets else p.offsets }
    else none
  | .reserve recordCount => p.state.map fun state => { p with
      state := some (state.reserve recordCount)
      pending := p.pending ++ [⟨state.nextOffset, recordCount⟩] }
  | .write i => p.pending[i]?.map fun r => { p with
      pending := p.pending.eraseIdx i
      written := p.written ++ [r]
      segments := p.appended r
      writing := true }
  | .ack i => p.written[i]?.map fun r => { p with
      written := p.written.eraseIdx i
      acked := p.acked ++ [r]
      state := p.state.map fun state =>
        { state with highWatermark := max state.highWatermark r.endOffset } }
  | .rotate => if p.writing then some { p with segments := p.segments ++ [[]] } else none
  | .index j registers => p.segments[j]?.bind fun segment =>
      if segment ≠ [] ∧ ¬ (p.writing ∧ j + 1 = p.segments.length) then
        some { p with registered := p.registered ++ if registers then [segmentRange segment] else [] }
      else none
  | .deleteSegment j =>
      if j < p.segments.length ∧ ¬ (p.writing ∧ j + 1 = p.segments.length) then
        some { p with segments := p.segments.eraseIdx j }
      else none
  | .updateOffset highWatermark => p.state.bind fun state =>
      if highWatermark ≤ state.highWatermark then
        some { p with offsets := some (MetadataState.setHighWatermark p.offsets highWatermark) }
      else none

/-- Startup. `walFound`: some partition has a WAL file; `failed`: the state could not be restored.
-/
def restored (walFound failed : Bool) : Option PartitionState :=
  if failed then none
  else if walFound then
    (maxOffset (p.segments.map (·.map (·.lastOffset)))).map fun maxOffset => .new (maxOffset + 1) 0
  else
    (p.offsets.filter (0 < ·.1)).map fun offsets => .new offsets.1 0

/-- A crash and the startup after it: what was not written is lost, and there is no queue. -/
def restart (walFound failed : Bool) : WalPartition :=
  { p with
    state := p.restored walFound failed
    pending := []
    written := []
    writing := false }

/-- The offset is that of an acknowledged record. -/
def AckedOffset (offset : Nat) : Prop := ∃ r ∈ p.acked, r.Holds offset
deriving Decidable

/-- The watermark in the metadata store is not below the end of the record. -/
def Covered (offsets : Option (Int × Int)) (r : ReservedRange) : Prop :=
  ∃ o ∈ offsets, (r.endOffset : Int) ≤ o.1 ∧ o.1 < 2 ^ 63
deriving Decidable

/-- The deletion leaves a newer record, or it leaves none and all that was written is below the
watermark in the metadata store. -/
def KeepsEnd (j : Nat) : Prop :=
  p.segments[j]? = some [] ∨ (p.segments.drop (j + 1)).flatten ≠ [] ∨
    ((p.segments.eraseIdx j).flatten = [] ∧ ∀ r ∈ p.written ++ p.acked, Covered p.offsets r)

instance (j : Nat) : Decidable (p.KeepsEnd j) :=
  inferInstanceAs (Decidable (_ ∨ _ ∨ _))

/-- Records are appended in the order of their reservation, below 2^63; deletions keep the end, and
the watermark is written in turn. -/
def InTurn : Action → Prop
  | .reserve recordCount => ∀ state ∈ p.state, state.nextOffset + recordCount < 2 ^ 63
  | .write i => i = 0
  | .deleteSegment j => p.KeepsEnd j
  | .updateOffset highWatermark => highWatermark < 2 ^ 63 ∧ ∀ o ∈ p.offsets, o.1 ≤ highWatermark
  | _ => True

instance : DecidableRel InTurn := fun _ _ => by
  unfold InTurn
  split <;> infer_instance

/-! ## The invariant -/

def records : List ReservedRange := p.segments.flatten ++ p.pending ++ (p.written ++ p.acked)

end

/-- Every record is below the next offset; what is pending comes after what is written, and both are
in order; what was written is not above the last record of the WAL or, if there is none, the
watermark. -/
structure Inv (p : WalPartition) : Prop where
  below : ∀ r ∈ p.records, r.endOffset ≤ p.getOrCreate.nextOffset
  unused : p.state = none → p.offsets = none → ∀ r ∈ p.records, r.endOffset = 0
  fits : ∀ r ∈ p.segments.flatten ++ p.pending, r.endOffset < 2 ^ 63
  before : ∀ r ∈ p.segments.flatten ++ (p.written ++ p.acked), ∀ r' ∈ p.pending, r.endOffset ≤ r'.baseOffset
  ordered : p.pending.Pairwise fun r r' => r.endOffset ≤ r'.baseOffset
  ascending : p.segments.flatten.Pairwise fun r r' => r.endOffset ≤ r'.endOffset
  kept : ∀ r ∈ p.written ++ p.acked,
    (∃ newest ∈ p.segments.flatten.getLast?, r.endOffset ≤ newest.endOffset) ∨
      (p.segments.flatten = [] ∧ Covered p.offsets r)

variable {p p' : WalPartition} {r : ReservedRange} {j : Nat}

theorem flatten_appended : (p.appended r).flatten = p.segments.flatten ++ [r] := by
  rw [appended]
  split
  case isTrue =>
    rw [flatten_append, flatten_singleton, ← append_assoc]
    congr 1
    rcases eq_nil_or_concat p.segments with hnil | ⟨init, last, hconcat⟩
    · rw [hnil]
      rfl
    · rw [hconcat, concat_eq_append, dropLast_concat, getLastD_concat, flatten_append,
        flatten_singleton]
  case isFalse => rw [flatten_append, flatten_singleton]

theorem asU64_of_lt {n : Int} (h0 : 0 ≤ n) (h : n < 2 ^ 64) : (asU64 n : Int) = n := by
  rw [asU64]
  omega

theorem Inv.init : WalPartition.init.Inv where
  below := forall_mem_nil _
  unused := fun _ _ _ hr => absurd hr not_mem_nil
  fits := forall_mem_nil _
  before := forall_mem_nil _
  ordered := .nil
  ascending := .nil
  kept := forall_mem_nil _

/-- The state that is created is the one that a request would have been given. -/
theorem Inv.create (h : p.Inv) (persisted : Bool) :
    Inv { p with
      state := some p.getOrCreate
      offsets := if persisted then some p.createdOffsets else p.offsets } where
  __ := h
  unused := fun hnone => by cases hnone
  kept := by
    intro r hr
    rcases h.kept r hr with hnewest | ⟨hnil, o, ho, hle⟩
    · exact .inl hnewest
    refine .inr ⟨hnil, o, ?_, hle⟩
    have hcreated : p.createdOffsets = o := by rw [createdOffsets, ho, getD_some]
    split
    case isTrue => rw [hcreated]; rfl
    case isFalse => exact ho

theorem Inv.reserve (h : p.Inv) {state : PartitionState} (hstate : p.state = some state) {recordCount : Nat}
    (hfits : state.nextOffset + recordCount < 2 ^ 63) :
    Inv { p with
      state := some (state.reserve recordCount)
      pending := p.pending ++ [⟨state.nextOffset, recordCount⟩] } := by
  have hnow : p.getOrCreate = state := by rw [getOrCreate, hstate, getD_some]
  have hnext : (state.reserve recordCount).nextOffset = state.nextOffset + recordCount :=
    Nat.mod_eq_of_lt (by omega)
  have hbelow := h.below
  rw [hnow] at hbelow
  constructor
  case below =>
    intro r hr
    have hr : r = ⟨state.nextOffset, recordCount⟩ ∨ r ∈ p.records := by
      simp only [records, mem_append, mem_singleton] at hr ⊢
      tauto
    have hle : r.endOffset ≤ (state.reserve recordCount).nextOffset := by
      rw [hnext]
      rcases hr with rfl | hold
      · exact le_refl _
      · exact le_trans (hbelow r hold) (Nat.le_add_right _ _)
    exact hle
  case unused => exact fun hnone => by cases hnone
  case fits =>
    intro r hr
    simp only [mem_append, mem_singleton] at hr
    rcases hr with hflat | hpending | rfl
    · exact h.fits r (mem_append_left _ hflat)
    · exact h.fits r (mem_append_right _ hpending)
    · exact hfits
  case before =>
    intro r hr r' hr'
    rcases mem_concat.1 hr' with hold | rfl
    · exact h.before r hr r' hold
    refine hbelow r ?_
    simp only [records, mem_append] at hr ⊢
    tauto
  case ordered =>
    refine pairwise_concat.2 ⟨h.ordered, ?_⟩
    intro r hr
    refine hbelow r ?_
    simp only [records, mem_append]
    tauto
  case ascending => exact h.ascending
  case kept => exact h.kept

theorem Inv.write (h : p.Inv) {rest : List ReservedRange} (hpending : p.pending = r :: rest) :
    Inv { p with
      pending := rest
      written := p.written ++ [r]
      segments := p.appended r
      writing := true } := by
  have hordered := pairwise_cons.1 (hpending ▸ h.ordered)
  have hbefore : ∀ r' ∈ p.segments.flatten ++ (p.written ++ p.acked), r'.endOffset ≤ r.endOffset := by
    intro r' hr'
    have hbase := h.before r' hr' r (by rw [hpending]; exact mem_cons_self)
    exact le_trans hbase (Nat.le_add_right _ _)
  have hrecords : ∀ r' ∈ (p.appended r).flatten ++ rest ++ (p.written ++ [r] ++ p.acked),
      r' ∈ p.records := by
    intro r' hr'
    simp only [records, flatten_appended, hpending, mem_append, mem_cons, not_mem_nil,
      or_false] at hr' ⊢
    tauto
  have hstored : ∀ r' ∈ (p.appended r).flatten ++ (p.written ++ [r] ++ p.acked),
      r' = r ∨ r' ∈ p.segments.flatten ++ (p.written ++ p.acked) := by
    intro r' hr'
    simp only [flatten_appended, mem_append, mem_singleton] at hr' ⊢
    tauto
  constructor
  case below => exact fun r' hr' => h.below r' (hrecords r' hr')
  case unused => exact fun hnone hoffsets r' hr' => h.unused hnone hoffsets r' (hrecords r' hr')
  case fits =>
    intro r' hr'
    refine h.fits r' ?_
    rw [flatten_appended] at hr'
    rw [hpending]
    simp only [mem_append, mem_cons, not_mem_nil, or_false] at hr' ⊢
    tauto
  case before =>
    intro r' hr' r'' hr''
    rcases hstored r' hr' with rfl | hold
    · exact hordered.1 r'' hr''
    · exact h.before r' hold r'' (by rw [hpending]; exact mem_cons_of_mem r hr'')
  case ordered => exact hordered.2
  case ascending =>
    rw [flatten_appended]
    refine pairwise_concat.2 ⟨h.ascending, ?_⟩
    intro r' hr'
    exact hbefore r' (mem_append_left _ hr')
  case kept =>
    intro r' hr'
    refine .inl ⟨r, ?_, ?_⟩
    · rw [flatten_appended, getLast?_concat]
      rfl
    · rcases hstored r' (mem_append_right _ hr') with rfl | hold
      · exact le_refl _
      · exact hbefore r' hold

/-- A step that leaves the log and the metadata offsets as they are, and brings no record. -/
theorem Inv.of_subset (h : p.Inv) (hflat : p'.segments.flatten = p.segments.flatten)
    (hpending : p'.pending = p.pending) (hdone : ∀ r ∈ p'.written ++ p'.acked, r ∈ p.written ++ p.acked)
    (hoffsets : p'.offsets = p.offsets) (hstate : p'.state = none → p.state = none)
    (hnext : p.state ≠ none ∨ p.offsets ≠ none → p'.getOrCreate.nextOffset = p.getOrCreate.nextOffset) :
    p'.Inv := by
  have hrecords : ∀ r ∈ p'.records, r ∈ p.records := by
    intro r hr
    rw [records, hflat, hpending] at hr
    rcases mem_append.1 hr with hlog | hold
    · exact mem_append_left _ hlog
    · exact mem_append_right _ (hdone r hold)
  constructor
  case below =>
    intro r hr
    by_cases hused : p.state ≠ none ∨ p.offsets ≠ none
    · rw [hnext hused]
      exact h.below r (hrecords r hr)
    rw [not_or, not_not, not_not] at hused
    rw [h.unused hused.1 hused.2 r (hrecords r hr)]
    exact Nat.zero_le _
  case unused =>
    intro hnone hnone' r hr
    rw [hoffsets] at hnone'
    exact h.unused (hstate hnone) hnone' r (hrecords r hr)
  case fits =>
    rw [hflat, hpending]
    exact h.fits
  case before =>
    intro r hr r' hr'
    rw [hflat] at hr
    rw [hpending] at hr'
    refine h.before r ?_ r' hr'
    rcases mem_append.1 hr with hlog | hold
    · exact mem_append_left _ hlog
    · exact mem_append_right _ (hdone r hold)
  case ordered =>
    rw [hpending]
    exact h.ordered
  case ascending =>
    rw [hflat]
    exact h.ascending
  case kept =>
    intro r hr
    rw [hflat, hoffsets]
    exact h.kept r (hdone r hr)

theorem Inv.deleteSegment (h : p.Inv) (hkeeps : p.KeepsEnd j) :
    Inv { p with segments := p.segments.eraseIdx j } := by
  have hsub : (p.segments.eraseIdx j).flatten.Sublist p.segments.flatten :=
    (eraseIdx_sublist p.segments j).flatten
  have hrecords : ∀ r ∈ records { p with segments := p.segments.eraseIdx j }, r ∈ p.records := by
    intro r hr
    simp only [records, mem_append] at hr ⊢
    have hmem := hsub.subset (a := r)
    tauto
  constructor
  case below => exact fun r hr => h.below r (hrecords r hr)
  case unused => exact fun hnone hoffsets r hr => h.unused hnone hoffsets r (hrecords r hr)
  case fits =>
    intro r hr
    rcases mem_append.1 hr with hlog | hpending
    · exact h.fits r (mem_append_left _ (hsub.subset hlog))
    · exact h.fits r (mem_append_right _ hpending)
  case before =>
    intro r hr r' hr'
    rcases mem_append.1 hr with hlog | hold
    · exact h.before r (mem_append_left _ (hsub.subset hlog)) r' hr'
    · exact h.before r (mem_append_right _ hold) r' hr'
  case ordered => exact h.ordered
  case ascending => exact h.ascending.sublist hsub
  case kept =>
    intro r hr
    -- an empty file, a file with a newer record behind it, or the last records of the log
    rcases hkeeps with hempty | hnewer | ⟨hnil, hcovered⟩
    · have hsame : (p.segments.eraseIdx j).flatten = p.segments.flatten := by
        obtain ⟨hj, hget⟩ := List.getElem?_eq_some_iff.1 hempty
        have hsplit : p.segments = p.segments.take j ++ [] :: p.segments.drop (j + 1) := by
          rw [← hget, getElem_cons_drop, take_append_drop]
        rw [eraseIdx_eq_take_drop_succ, flatten_append]
        conv_rhs => rw [hsplit, flatten_append, flatten_cons, nil_append]
      rw [hsame]
      exact h.kept r hr
    · have hlast : (p.segments.eraseIdx j).flatten.getLast? = p.segments.flatten.getLast? := by
        have hsplit : p.segments.flatten =
            (p.segments.take (j + 1)).flatten ++ (p.segments.drop (j + 1)).flatten := by
          rw [← flatten_append, take_append_drop]
        rw [hsplit, getLast?_append_of_ne_nil _ hnewer, eraseIdx_eq_take_drop_succ,
          flatten_append, getLast?_append_of_ne_nil _ hnewer]
      rcases h.kept r hr with hnewest | ⟨hnone, -⟩
      · refine .inl ?_
        rw [hlast]
        exact hnewest
      · exact absurd (sublist_nil.1 (hnone ▸ (drop_sublist (j + 1) p.segments).flatten)) hnewer
    · exact .inr ⟨hnil, hcovered r hr⟩

theorem fst_setHighWatermark (offsets : Option (Int × Int)) (highWatermark : Int) :
    (MetadataState.setHighWatermark offsets highWatermark).1 = highWatermark := by
  cases offsets with
  | none | some => rfl

theorem Inv.updateOffset (h : p.Inv) {state : PartitionState} (hstate : p.state = some state)
    {highWatermark : Nat} (hfits : highWatermark < 2 ^ 63) (hturn : ∀ o ∈ p.offsets, o.1 ≤ highWatermark) :
    Inv { p with offsets := some (MetadataState.setHighWatermark p.offsets highWatermark) } where
  __ := h
  below := by
    intro r hr
    have hle := h.below r hr
    rw [getOrCreate, hstate] at hle
    rw [hstate]
    exact hle
  unused := fun _ hnone => by cases hnone
  kept := by
    intro r hr
    rcases h.kept r hr with hnewest | ⟨hnil, o, ho, hle, -⟩
    · exact .inl hnewest
    refine .inr ⟨hnil, _, rfl, ?_, ?_⟩
    · rw [fst_setHighWatermark]
      exact le_trans hle (hturn o ho)
    · rw [fst_setHighWatermark]
      exact_mod_cast hfits

/-! ## Startup -/

section
variable (h : p.Inv) {newest : ReservedRange} (hnewest : p.segments.flatten.getLast? = some newest)
include h hnewest

theorem Inv.endOffset_le_newest (hr : r ∈ p.segments.flatten ++ (p.written ++ p.acked)) :
    r.endOffset ≤ newest.endOffset := by
  rcases mem_append.1 hr with hlog | hdone
  · rcases h.ascending.eq_or_of_getLast? hnewest hlog with rfl | hle
    · exact le_refl _
    · exact hle
  · rcases h.kept r hdone with ⟨newest', hnewest', hle⟩ | ⟨hnil, -⟩
    · rw [hnewest] at hnewest'
      cases hnewest'
      exact hle
    · rw [hnil] at hnewest
      cases hnewest

theorem Inv.maxOffset_eq :
    maxOffset (p.segments.map (·.map (·.lastOffset))) =
      if 0 ≤ newest.lastOffset then some newest.lastOffset else none := by
  have hflat : (p.segments.map (·.map (·.lastOffset))).flatten = p.segments.flatten.map (·.lastOffset) :=
    map_flatten.symm
  apply maxOffset_of_ascending
  · rw [hflat, pairwise_map]
    apply h.ascending.imp
    intro r r' hle
    rw [ReservedRange.lastOffset, ReservedRange.lastOffset]
    omega
  · rw [hflat, getLast?_map, hnewest]
    rfl

/-- Where the WAL has a record, startup goes on from the end of the last one. Only an empty batch at
the very start gives no state. -/
theorem Inv.state_restart {walFound : Bool} (hfound : p.segments ≠ [] → walFound = true) :
    (p.restart walFound false).state =
      if 0 ≤ newest.lastOffset then some (.new (newest.lastOffset + 1) 0) else none := by
  have hne : p.segments ≠ [] := by
    intro hnil
    rw [hnil] at hnewest
    cases hnewest
  have hrestored : (p.restart true false).state =
      (maxOffset (p.segments.map (·.map (·.lastOffset)))).map fun m => .new (m + 1) 0 := rfl
  rw [hfound hne, hrestored, h.maxOffset_eq hnewest]
  split <;> rfl

end

/-- With no record in the WAL, startup goes on from the watermark in the metadata store. -/
theorem nextOffset_restart_of_nil (hnil : p.segments.flatten = []) {o : Int × Int} (ho : p.offsets = some o)
    (walFound : Bool) : (p.restart walFound false).getOrCreate.nextOffset = asU64 o.1 := by
  have hcreated : (p.restart walFound false).createdOffsets = o := by
    rw [createdOffsets, WalPartition.restart, ho, getD_some]
  have hfiles : (p.segments.map (·.map (·.lastOffset))).flatten = [] := by
    rw [← map_flatten, hnil, map_nil]
  rw [getOrCreate, hcreated]
  cases walFound with
  | true =>
    have hnone : (p.restart true false).state = none := by
      rw [WalPartition.restart, restored, maxOffset_eq_none hfiles]
      rfl
    rw [hnone]
    rfl
  | false =>
    have hrestored : (p.restart false false).state = ((some o).filter (0 < ·.1)).map fun o => .new o.1 0 := by
      rw [WalPartition.restart, restored, ho]
      rfl
    rw [hrestored, filter_some]
    split <;> rfl

section
variable {walFound : Bool} (h : p.Inv) (hfound : p.segments ≠ [] → walFound = true)
include h hfound

/-- After a crash and a startup the next offset is above all that was written. -/
theorem Inv.endOffset_le_restart (hr : r ∈ p.segments.flatten ++ (p.written ++ p.acked)) :
    r.endOffset ≤ (p.restart walFound false).getOrCreate.nextOffset := by
  cases hnewest : p.segments.flatten.getLast? with
  | none =>
    have hnil := getLast?_eq_none_iff.1 hnewest
    rw [hnil] at hr
    rcases h.kept r hr with ⟨newest, hsome, -⟩ | ⟨-, o, ho, hle, hlt⟩
    · rw [hnewest] at hsome
      cases hsome
    rw [nextOffset_restart_of_nil hnil ho]
    have hcast := asU64_of_lt (n := o.1) (by omega) (by omega)
    omega
  | some newest =>
    have hle := h.endOffset_le_newest hnewest hr
    have hfits := h.fits newest (mem_append_left _ (mem_of_getLast? hnewest))
    rw [getOrCreate, h.state_restart hnewest hfound]
    rw [ReservedRange.lastOffset]
    split
    case isTrue hpos =>
      have hcast := asU64_of_lt (n := (newest.endOffset : Int) - 1 + 1) (by omega) (by omega)
      have hnext : (PartitionState.new ((newest.endOffset : Int) - 1 + 1) 0).nextOffset =
        asU64 ((newest.endOffset : Int) - 1 + 1) := rfl
      rw [getD_some]
      omega
    case isFalse hneg =>
      have hzero : r.endOffset = 0 := by omega
      rw [hzero]
      exact Nat.zero_le _

theorem Inv.restart : (p.restart walFound false).Inv := by
  have hrecords : ∀ r ∈ (p.restart walFound false).records, r ∈ p.segments.flatten ++ (p.written ++ p.acked) := by
    intro r hr
    simp only [records, WalPartition.restart, append_nil, nil_append, mem_append] at hr ⊢
    tauto
  constructor
  case below => exact fun r hr => h.endOffset_le_restart hfound (hrecords r hr)
  case unused =>
    intro hstate hoffsets r hr
    cases hnewest : p.segments.flatten.getLast? with
    | none =>
      have hr := hrecords r hr
      rw [getLast?_eq_none_iff.1 hnewest] at hr
      rcases h.kept r hr with ⟨newest, hsome, -⟩ | ⟨-, o, ho, -⟩
      · rw [hnewest] at hsome
        cases hsome
      · cases ho.symm.trans hoffsets
    | some newest =>
      have hle := h.endOffset_le_newest hnewest (hrecords r hr)
      rw [h.state_restart hnewest hfound, ReservedRange.lastOffset] at hstate
      split at hstate
      case isTrue => cases hstate
      case isFalse hneg => omega
  case fits => exact fun r hr => h.fits r (mem_append_left _ (by simpa [WalPartition.restart] using hr))
  case before => exact fun _ _ _ hr' => absurd hr' not_mem_nil
  case ordered => exact .nil
  case ascending => exact h.ascending
  case kept =>
    intro r hr
    exact h.kept r (mem_append_right _ hr)

end

/-! ## Runs -/

theorem Inv.step {a : Action} (h : p.Inv) (hturn : p.InTurn a) (hs : p.step a = some p') : p'.Inv := by
  cases a with
  | create persisted =>
    rw [WalPartition.step, ite_none_right_eq_some] at hs
    cases hs.2
    exact h.create persisted
  | reserve recordCount =>
    obtain ⟨state, hstate, rfl⟩ := map_eq_some_iff.1 hs
    exact h.reserve hstate (hturn state hstate)
  | write i =>
    obtain ⟨r, hr, rfl⟩ := map_eq_some_iff.1 hs
    obtain rfl : i = 0 := hturn
    cases hpending : p.pending with rw [hpending] at hr
    | nil =>
      cases hr
    | cons r' rest =>
      cases hr
      exact h.write hpending
  | ack i =>
    obtain ⟨r, hr, rfl⟩ := map_eq_some_iff.1 hs
    refine h.of_subset rfl rfl ?_ rfl map_eq_none_iff.1 ?_
    · intro r' hr'
      simp only [mem_append, mem_singleton] at hr' ⊢
      rcases hr' with hrest | hold | rfl
      · exact .inl (mem_of_mem_eraseIdx hrest)
      · exact .inr hold
      · exact .inl (mem_of_getElem? hr)
    · intro _
      rw [getOrCreate, getOrCreate]
      cases p.state with
      | none | some => rfl
  | rotate =>
    rw [WalPartition.step, ite_none_right_eq_some] at hs
    cases hs.2
    refine h.of_subset ?_ rfl (fun _ hr => hr) rfl (fun hnone => hnone) (fun _ => rfl)
    rw [flatten_append, flatten_singleton, append_nil]
  | index j registers =>
    obtain ⟨segment, -, hs⟩ := bind_eq_some_iff.1 hs
    obtain ⟨-, rfl⟩ := of_guard hs
    refine h.of_subset rfl rfl (fun _ hr => hr) rfl (fun hnone => hnone) ?_
    intro hused
    rw [getOrCreate, getOrCreate]
    rcases hused with hstate | hoffsets
    · obtain ⟨state, hstate⟩ := ne_none_iff_exists'.1 hstate
      rw [hstate]
      rfl
    · obtain ⟨o, ho⟩ := ne_none_iff_exists'.1 hoffsets
      rw [createdOffsets, createdOffsets, ho]
      rfl
  | deleteSegment j =>
    rw [WalPartition.step, ite_none_right_eq_some] at hs
    cases hs.2
    exact h.deleteSegment hturn
  | updateOffset highWatermark =>
    obtain ⟨state, hstate, hs⟩ := bind_eq_some_iff.1 hs
    obtain ⟨-, rfl⟩ := of_guard hs
    exact h.updateOffset hstate hturn.1 hturn.2

end WalPartition

/-! ## The broker -/

namespace WalBroker

variable {κ : Type*}

inductive Action (κ : Type*) where
  | partition (k : κ) (a : WalPartition.Action)
  /-- A crash and a startup at which these partitions cannot be restored. -/
  | restart (failed : List κ)

/-- `get_partitions` finds some partition with a WAL file. -/
def walFound (keys : List κ) (b : κ → WalPartition) : Bool := keys.any fun k => decide ((b k).segments ≠ [])

theorem walFound_of_ne_nil {keys : List κ} {b : κ → WalPartition} {k : κ} (hk : k ∈ keys)
    (hne : (b k).segments ≠ []) : walFound keys b = true := by
  rw [walFound, List.any_eq_true]
  exact ⟨k, hk, decide_eq_true hne⟩

variable [DecidableEq κ]

def restart (keys failed : List κ) (b : κ → WalPartition) : κ → WalPartition :=
  fun k => (b k).restart (walFound keys b) (decide (k ∈ failed))

def step (keys : List κ) (b : κ → WalPartition) : Action κ → Option (κ → WalPartition)
  | .partition k a => if k ∈ keys then ((b k).step a).map (Function.update b k) else none
  | .restart failed => some (restart keys failed b)

def machine (keys : List κ) : Machine (κ → WalPartition) (Action κ) where
  init := fun _ => .init
  step := step keys

/-- The offset that the first request after a crash and a startup is given. -/
def nextAfterRestart (keys : List κ) (b : κ → WalPartition) (k : κ) : Nat :=
  (restart keys [] b k).getOrCreate.nextOffset

def RestoresEnd (b : κ → WalPartition) : Action κ → Prop
  | .partition k a => (b k).InTurn a
  | .restart failed => failed = []

instance : DecidableRel (RestoresEnd (κ := κ)) := fun _ _ => by
  unfold RestoresEnd
  split <;> infer_instance

theorem inv_of_reaches {keys : List κ} {b : κ → WalPartition} (h : Reaches (machine keys) RestoresEnd b) :
    ∀ k ∈ keys, (b k).Inv := by
  refine h.invariant (I := fun b => ∀ k ∈ keys, (b k).Inv) (fun _ _ => .init) ?_
  intro b a b' hb hok hs k hk
  cases a with
  | partition k' a =>
    simp only [machine, step, ite_none_right_eq_some] at hs
    obtain ⟨hk', hs⟩ := hs
    obtain ⟨p, hp, rfl⟩ := map_eq_some_iff.1 hs
    by_cases heq : k = k'
    · subst heq
      rw [Function.update_self]
      exact (hb k hk).step hok hp
    · rw [Function.update_of_ne heq]
      exact hb k hk
  | restart failed =>
    cases hs
    obtain rfl : failed = [] := hok
    exact (hb k hk).restart (walFound_of_ne_nil hk)

/-- The next offset after a crash and a startup is above every acknowledged one, where records are
appended in turn, deletions keep the end and watermarks are written in turn. -/
theorem acked_offset_lt_next {keys : List κ} {b : κ → WalPartition}
    (h : Reaches (machine keys) RestoresEnd b) {k : κ} (hk : k ∈ keys) {offset : Nat}
    (hacked : (b k).AckedOffset offset) : offset < nextAfterRestart keys b k := by
  obtain ⟨r, hr, hholds⟩ := hacked
  have hle := (inv_of_reaches h k hk).endOffset_le_restart (walFound_of_ne_nil hk)
    (mem_append_right _ (mem_append_right _ hr))
  exact lt_of_lt_of_le hholds.2 hle

/-- The first of two files is indexed and deleted, a restart, and then all of the log but the
watermark is deleted. -/
theorem acked_offset_lt_next_two_restarts : ∃ b, Reaches (machine [0, 1]) RestoresEnd b ∧
    (b 0).AckedOffset 9 ∧ (b 0).segments.flatten = [] ∧ nextAfterRestart [0, 1] b 0 = 10 ∧
      9 < nextAfterRestart [0, 1] b 0 := by
  obtain ⟨b, hb, hacked, hnil, hnext⟩ := exists_reaches_of_run (machine [0, 1]) RestoresEnd
    [.partition 0 (.create true), .partition 0 (.reserve 5), .partition 0 (.write 0), .partition 0 (.ack 0),
      .partition 0 .rotate, .partition 0 (.reserve 5), .partition 0 (.write 0), .partition 0 (.ack 0),
      .partition 0 (.index 0 true), .partition 0 (.deleteSegment 0), .partition 0 (.updateOffset 10), .restart [],
      .partition 0 (.index 0 true), .partition 0 (.deleteSegment 0)]
    (fun b => (b 0).AckedOffset 9 ∧ (b 0).segments.flatten = [] ∧ nextAfterRestart [0, 1] b 0 = 10) (by decide)
  exact ⟨b, hb, hacked, hnil, hnext, acked_offset_lt_next hb (by decide) hacked⟩

/-- 0 to 9 were acknowledged and the broker goes on with 5: the second of two records is written
before a rotation and the first after it; the watermark is written early and all records deleted;
the last file is deleted and an older one stays. -/
theorem acked_offset_reused :
    (∃ b, Reaches (machine [0]) Always b ∧ (b 0).segments = [[⟨5, 5⟩], [⟨0, 5⟩]] ∧
      (b 0).AckedOffset 9 ∧ nextAfterRestart [0] b 0 = 5) ∧
    (∃ b, Reaches (machine [0]) Always b ∧ (b 0).segments = [[]] ∧
      (b 0).AckedOffset 9 ∧ nextAfterRestart [0] b 0 = 5) ∧
    (∃ b, Reaches (machine [0]) Always b ∧ (b 0).segments = [[⟨0, 5⟩], []] ∧
      (b 0).AckedOffset 9 ∧ nextAfterRestart [0] b 0 = 5) := by
  refine ⟨?_, ?_, ?_⟩
  · exact exists_reaches_of_run (machine [0]) Always
      [.partition 0 (.create true), .partition 0 (.reserve 5), .partition 0 (.reserve 5),
        .partition 0 (.write 1), .partition 0 .rotate, .partition 0 (.write 0), .partition 0 (.ack 0),
        .partition 0 (.ack 0)] _ (by decide)
  · exact exists_reaches_of_run (machine [0]) Always
      [.partition 0 (.create true), .partition 0 (.reserve 5), .partition 0 (.write 0),
        .partition 0 (.ack 0), .partition 0 (.updateOffset 5), .partition 0 (.reserve 5), .partition 0 (.write 0),
        .partition 0 (.ack 0), .partition 0 .rotate, .partition 0 (.index 0 true), .partition 0 (.deleteSegment 0)]
      _ (by decide)
  · exact exists_reaches_of_run (machine [0]) Always
      [.partition 0 (.create true), .partition 0 (.reserve 5), .partition 0 (.write 0),
        .partition 0 (.ack 0), .partition 0 .rotate, .partition 0 (.reserve 5), .partition 0 (.write 0),
        .partition 0 (.ack 0), .partition 0 .rotate, .partition 0 (.index 1 true), .partition 0 (.deleteSegment 1)]
      _ (by decide)

end WalBroker

end ChronikStream
