import ChronikStream.Lib.Bytes
import ChronikStream.Lib.OrderedMap
import ChronikStream.Replication.Log

/-!
# The transaction index of a partition

`transaction_index.rs` for one partition. `fate` is what the log says about a transactional batch:
the first marker of its producer behind it. `Tracks` is what the index knows about the log, and
`tracks_replay` proves it for every log by what one batch does to both sides.
-/

namespace ChronikStream

open Bytes OffsetRange List Option OrderedMap

variable {β : Type*}

structure TxnRecord (β : Type*) where
  key : Option (List UInt8)
  value : β
  deriving DecidableEq

/-- A batch with the header fields that transactions and idempotent producers are about. -/
structure TxnBatch (β : Type*) extends Batch (TxnRecord β) where
  producerId : Int
  producerEpoch : Int
  baseSequence : Int
  isTransactional : Bool
  isControl : Bool
  deriving DecidableEq

instance : OffsetRange (TxnBatch β) where
  base b := b.baseOffset
  last b := b.lastOffset

inductive TxnMarker where
  | abort
  | commit
  deriving DecidableEq

namespace TxnBatch

/-- The type a control batch carries in the key of its first record, behind a version. -/
def controlType (b : TxnBatch β) : Option Int :=
  ((b.records.head?.bind (·.key)).filter (4 ≤ ·.length)).map fun key => ofBeInt (slice key 2 2)

def marker (b : TxnBatch β) : Option TxnMarker :=
  if b.isControl then
    match b.controlType with
    | some 1 => some .commit
    | some 0 => some .abort
    | _ => none
  else none

def markerOf (p : Int) (b : TxnBatch β) : Option TxnMarker :=
  if b.producerId = p then b.marker else none

def IsTxnData (b : TxnBatch β) : Prop :=
  b.isTransactional = true ∧ b.isControl = false
deriving Decidable

end TxnBatch

/-- An aborted transaction as reported in a fetch response. -/
structure AbortedTxn where
  producerId : Int
  firstOffset : Int
  deriving DecidableEq

/-- The open transactions with their first offset, and the aborted ones in the order of their
markers. -/
structure PartitionTxnState where
  ongoing : OrderedMap Int Int
  aborted : List AbortedTxn
  deriving DecidableEq

namespace PartitionTxnState

def empty : PartitionTxnState := ⟨.empty, []⟩

section
variable (st : PartitionTxnState)

/-- A transactional batch opens a transaction, unless one is open. -/
def onTransactionalProduce (producerId baseOffset : Int) : PartitionTxnState :=
  { st with ongoing := st.ongoing.upsert producerId (·.getD baseOffset) }

def onCommit (producerId : Int) : PartitionTxnState :=
  { st with ongoing := st.ongoing.erase producerId }

/-- An abort marker closes the transaction and remembers it, if one was open. -/
def onAbort (producerId : Int) : PartitionTxnState where
  ongoing := st.ongoing.erase producerId
  aborted := st.aborted ++ ((st.ongoing.get? producerId).map (⟨producerId, ·⟩)).toList

def applyLogBatch (b : TxnBatch β) : PartitionTxnState :=
  if b.producerId < 0 then st
  else if b.isControl then
    match b.controlType with
    | some 1 => st.onCommit b.producerId
    | some 0 => st.onAbort b.producerId
    | _ => st
  else if b.isTransactional then st.onTransactionalProduce b.producerId b.baseOffset
  else st

def replay (bs : List (TxnBatch β)) : PartitionTxnState :=
  bs.foldl applyLogBatch empty

/-- The lowest first offset of an open transaction, else the high watermark. -/
def lastStableOffset (highWatermark : Int) : Int :=
  (st.ongoing.entries.map Prod.snd).min?.getD highWatermark

/-- The aborted transactions that start below the fetch's upper bound. -/
def abortedBelow (upper : Int) : List AbortedTxn :=
  st.aborted.filter (·.firstOffset < upper)

end

theorem replay_concat (bs : List (TxnBatch β)) (b : TxnBatch β) :
    replay (bs ++ [b]) = (replay bs).applyLogBatch b := by
  rw [replay, replay, foldl_concat]

section
variable {st : PartitionTxnState} {b : TxnBatch β} {p f : Int}

theorem applyLogBatch_cases (st : PartitionTxnState) (b : TxnBatch β) :
    (b.IsTxnData ∧ st.applyLogBatch b = st.onTransactionalProduce b.producerId b.baseOffset) ∨
    (b.marker = some .commit ∧ st.applyLogBatch b = st.onCommit b.producerId) ∨
    (b.marker = some .abort ∧ st.applyLogBatch b = st.onAbort b.producerId) ∨
    (st.applyLogBatch b = st ∧ (b.producerId < 0 ∨ (¬ b.IsTxnData ∧ b.marker = none))) := by
  rw [applyLogBatch]
  split
  case isTrue hneg => exact .inr (.inr (.inr ⟨rfl, .inl hneg⟩))
  case isFalse =>
  split
  case isTrue hcontrol =>
    have hdata : ¬ b.IsTxnData := fun h => absurd hcontrol (by rw [h.2]; decide)
    split
    case h_1 htype =>
      refine .inr (.inl ⟨?_, rfl⟩)
      rw [TxnBatch.marker, if_pos hcontrol, htype]
      rfl
    case h_2 htype =>
      refine .inr (.inr (.inl ⟨?_, rfl⟩))
      rw [TxnBatch.marker, if_pos hcontrol, htype]
      rfl
    case h_3 hcommit habort =>
      refine .inr (.inr (.inr ⟨rfl, .inr ⟨hdata, ?_⟩⟩))
      rw [TxnBatch.marker, if_pos hcontrol]
      split
      case h_1 htype => exact absurd htype hcommit
      case h_2 htype => exact absurd htype habort
      case h_3 => rfl
  case isFalse hcontrol =>
    split
    case isTrue htxn => exact .inl ⟨⟨htxn, Bool.eq_false_iff.2 hcontrol⟩, rfl⟩
    case isFalse htxn =>
      refine .inr (.inr (.inr ⟨rfl, .inr ⟨fun h => htxn h.1, ?_⟩⟩))
      rw [TxnBatch.marker, if_neg hcontrol]

theorem lastStableOffset_le (h : st.ongoing.get? p = some f) (highWatermark : Int) :
    st.lastStableOffset highWatermark ≤ f := by
  have hmem : f ∈ st.ongoing.entries.map Prod.snd := mem_map.2 ⟨_, get?_eq_some_iff.1 h, rfl⟩
  rw [lastStableOffset]
  cases hmin : (st.ongoing.entries.map Prod.snd).min? with
  | none => rw [min?_eq_none_iff.1 hmin] at hmem; cases hmem
  | some lso => exact (min?_eq_some_iff.1 hmin).2 f hmem

theorem lastStableOffset_cases (st : PartitionTxnState) (highWatermark : Int) :
    st.lastStableOffset highWatermark = highWatermark ∨
      ∃ p, st.ongoing.get? p = some (st.lastStableOffset highWatermark) := by
  rw [lastStableOffset]
  cases hmin : (st.ongoing.entries.map Prod.snd).min? with
  | none => exact .inl rfl
  | some lso =>
    obtain ⟨x, hx, rfl⟩ := mem_map.1 (min?_eq_some_iff.1 hmin).1
    exact .inr ⟨x.1, get?_eq_some_iff.2 hx⟩

end

end PartitionTxnState

/-! ## What the log says -/

def fate (log : List (TxnBatch β)) (b : TxnBatch β) : Option TxnMarker :=
  (log.filter (b.baseOffset < ·.baseOffset)).findSome? (TxnBatch.markerOf b.producerId)

section
variable {l : List (TxnBatch β)} {b c : TxnBatch β} {p : Int}

theorem TxnBatch.markerOf_producerId (b : TxnBatch β) : markerOf b.producerId b = b.marker :=
  if_pos rfl

theorem TxnBatch.marker_eq_none (h : b.IsTxnData) : b.marker = none := by
  rw [marker, h.2]
  rfl

theorem TxnBatch.markerOf_eq_none (h : b.marker = none) : markerOf p b = none := by
  rw [markerOf, h, ite_self]

section
variable (hasc : Ascending (l ++ [c]))
include hasc

theorem lastOffset_lt_of_concat (hb : b ∈ l) : b.lastOffset < c.baseOffset :=
  (pairwise_concat.1 hasc).2 b hb

theorem fate_concat (hb : b ∈ l) :
    fate (l ++ [c]) b = (fate l b).or (TxnBatch.markerOf b.producerId c) := by
  have hlt : b.baseOffset < c.baseOffset := by
    have hlast := lastOffset_lt_of_concat hasc hb
    have := b.baseOffset_le_lastOffset
    omega
  rw [fate, filter_append, filter_cons_of_pos (by simpa using hlt), filter_nil,
    findSome?_append, findSome?_singleton]
  rfl

theorem fate_concat_self : fate (l ++ [c]) c = none := by
  rw [fate, filter_eq_nil_iff.2]
  · rfl
  · intro b hb
    rcases mem_concat.1 hb with hb | rfl
    · have hlast := lastOffset_lt_of_concat hasc hb
      have := b.baseOffset_le_lastOffset
      rw [decide_eq_true_iff]
      omega
    · rw [decide_eq_true_iff]
      exact lt_irrefl _

end

end

/-! ## What the index knows about one producer -/

open TxnBatch (markerOf markerOf_eq_none marker_eq_none)

/-- A producer's part of the index. -/
structure ProducerTxns where
  opened : Option Int
  aborted : List Int

def PartitionTxnState.producer (st : PartitionTxnState) (p : Int) : ProducerTxns where
  opened := st.ongoing.get? p
  aborted := (st.aborted.filter (·.producerId = p)).map (·.firstOffset)

/-- The index agrees with the log about the transactions of a producer. -/
structure Tracks (p : Int) (l : List (TxnBatch β)) (t : ProducerTxns) : Prop where
  /-- An undecided batch lies in the open transaction. -/
  opened_of_undecided : ∀ b ∈ l, b.IsTxnData → b.producerId = p → fate l b = none →
    ∃ f ∈ t.opened, f ≤ b.baseOffset
  /-- The open transaction starts at an undecided batch, behind all markers of the producer. -/
  undecided_of_opened : ∀ f ∈ t.opened,
    (∃ a ∈ l, a.IsTxnData ∧ a.producerId = p ∧ a.baseOffset = f ∧ fate l a = none) ∧
      ∀ c ∈ l, markerOf p c ≠ none → c.lastOffset < f
  /-- A batch that was aborted lies in an aborted transaction, which starts behind the abort markers
  before the batch. -/
  aborted_of_fate : ∀ b ∈ l, b.IsTxnData → b.producerId = p → fate l b = some .abort →
    ∃ f ∈ t.aborted, f ≤ b.baseOffset ∧
      ∀ c ∈ l, markerOf p c = some .abort → c.baseOffset < b.baseOffset → c.lastOffset < f
  /-- An aborted transaction starts at a batch that was aborted. -/
  fate_of_aborted : ∀ f ∈ t.aborted,
    ∃ a ∈ l, a.IsTxnData ∧ a.producerId = p ∧ a.baseOffset = f ∧ fate l a = some .abort

section
variable {l : List (TxnBatch β)} {b c : TxnBatch β} {p : Int} {t : ProducerTxns}

theorem tracks_empty : Tracks p ([] : List (TxnBatch β)) (PartitionTxnState.empty.producer p) where
  opened_of_undecided _ hb := nomatch hb
  undecided_of_opened _ hf := nomatch hf
  aborted_of_fate _ hb := nomatch hb
  fate_of_aborted _ hf := nomatch hf

theorem fate_concat_ne_none (hasc : Ascending (l ++ [c])) (hc : markerOf p c ≠ none)
    (hb : b ∈ l ++ [c]) (hbd : b.IsTxnData) (hp : b.producerId = p) : fate (l ++ [c]) b ≠ none := by
  rcases mem_concat.1 hb with hb | rfl
  · rw [fate_concat hasc hb, hp]
    exact fun hnone => hc (or_eq_none_iff.1 hnone).2
  · exact absurd (markerOf_eq_none (marker_eq_none hbd)) hc

section
variable (h : Tracks p l t) (hasc : Ascending (l ++ [c]))
include h hasc

theorem Tracks.aborted_concat (hmarker : markerOf p c ≠ some .abort) :
    (∀ b ∈ l ++ [c], b.IsTxnData → b.producerId = p → fate (l ++ [c]) b = some .abort →
      ∃ f ∈ t.aborted, f ≤ b.baseOffset ∧ ∀ c' ∈ l ++ [c], markerOf p c' = some .abort →
        c'.baseOffset < b.baseOffset → c'.lastOffset < f) ∧
    ∀ f ∈ t.aborted, ∃ a ∈ l ++ [c], a.IsTxnData ∧ a.producerId = p ∧ a.baseOffset = f ∧
      fate (l ++ [c]) a = some .abort := by
  constructor
  · intro b hb hbd hp habort
    rcases mem_concat.1 hb with hb | rfl
    · rw [fate_concat hasc hb, hp] at habort
      have hold : fate l b = some .abort :=
        (or_eq_some_iff.1 habort).elim id fun hc => absurd hc.2 hmarker
      obtain ⟨f, hf, hle, hmarkers⟩ := h.aborted_of_fate b hb hbd hp hold
      refine ⟨f, hf, hle, forall_mem_concat.2 ⟨hmarkers, ?_⟩⟩
      exact fun hc => absurd hc hmarker
    · rw [fate_concat_self hasc] at habort
      cases habort
  · intro f hf
    obtain ⟨a, ha, had, hp, hbase, habort⟩ := h.fate_of_aborted f hf
    refine ⟨a, mem_append_left _ ha, had, hp, hbase, ?_⟩
    rw [fate_concat hasc ha, habort]
    rfl

theorem Tracks.opened_concat (hmarker : markerOf p c = none) (hf : f ∈ t.opened) :
    (∃ a ∈ l ++ [c], a.IsTxnData ∧ a.producerId = p ∧ a.baseOffset = f ∧
        fate (l ++ [c]) a = none) ∧
      ∀ c' ∈ l ++ [c], markerOf p c' ≠ none → c'.lastOffset < f := by
  obtain ⟨⟨a, ha, had, hp, hbase, hnone⟩, hmarkers⟩ := h.undecided_of_opened f hf
  refine ⟨⟨a, mem_append_left _ ha, had, hp, hbase, ?_⟩,
    forall_mem_concat.2 ⟨hmarkers, fun hc => absurd hmarker hc⟩⟩
  rw [fate_concat hasc ha, hnone, hp, hmarker]
  rfl

theorem Tracks.ignore
    (hmarker : markerOf p c = none) (hdata : c.IsTxnData → c.producerId ≠ p) :
    Tracks p (l ++ [c]) t := by
  obtain ⟨haborted, hfate⟩ := h.aborted_concat hasc (by rw [hmarker]; exact nofun)
  refine ⟨?_, fun f hf => h.opened_concat hasc hmarker hf, haborted, hfate⟩
  intro b hb hbd hp hnone
  rcases mem_concat.1 hb with hb | rfl
  · rw [fate_concat hasc hb, or_eq_none_iff] at hnone
    exact h.opened_of_undecided b hb hbd hp hnone.1
  · exact absurd hp (hdata hbd)

theorem Tracks.produce (hc : c.IsTxnData) (hp : c.producerId = p) :
    Tracks p (l ++ [c]) ⟨some (t.opened.getD c.baseOffset), t.aborted⟩ := by
  have hmarker : markerOf p c = none :=
    markerOf_eq_none (marker_eq_none hc)
  obtain ⟨haborted, hfate⟩ := h.aborted_concat hasc (by rw [hmarker]; exact nofun)
  refine ⟨?_, ?_, haborted, hfate⟩
  · intro b hb hbd hbp hnone
    refine ⟨_, rfl, ?_⟩
    rcases mem_concat.1 hb with hb | rfl
    · rw [fate_concat hasc hb, or_eq_none_iff] at hnone
      obtain ⟨f, hf, hle⟩ := h.opened_of_undecided b hb hbd hbp hnone.1
      rwa [hf]
    cases hopened : t.opened with
    | none => exact le_refl _
    | some f =>
    obtain ⟨⟨a, ha, -, -, rfl, -⟩, -⟩ := h.undecided_of_opened f hopened
    have := lastOffset_lt_of_concat hasc ha
    have := a.baseOffset_le_lastOffset
    rw [getD_some]
    omega
  · intro f hf
    obtain rfl : t.opened.getD c.baseOffset = f := some.inj hf
    cases hopened : t.opened with
    | some f => exact h.opened_concat hasc hmarker hopened
    | none =>
    refine ⟨⟨c, mem_concat_self, hc, hp, rfl, fate_concat_self hasc⟩, ?_⟩
    refine forall_mem_append.2 ⟨fun c' hc' _ => lastOffset_lt_of_concat hasc hc', ?_⟩
    exact forall_mem_singleton.2 fun hc => absurd hmarker hc

theorem Tracks.commit (hc : markerOf p c = some .commit) :
    Tracks p (l ++ [c]) ⟨none, t.aborted⟩ := by
  have hne : markerOf p c ≠ none := by
    rw [hc]
    exact nofun
  obtain ⟨haborted, hfate⟩ := h.aborted_concat hasc (by rw [hc]; exact nofun)
  refine ⟨?_, fun _ hf => (nomatch hf), haborted, hfate⟩
  exact fun b hb hbd hp hnone => absurd hnone (fate_concat_ne_none hasc hne hb hbd hp)

theorem Tracks.abort (hc : markerOf p c = some .abort) :
    Tracks p (l ++ [c]) ⟨none, t.aborted ++ t.opened.toList⟩ := by
  have hne : markerOf p c ≠ none := by
    rw [hc]
    exact nofun
  refine ⟨?_, fun _ hf => (nomatch hf), ?_, ?_⟩
  · exact fun b hb hbd hp hnone => absurd hnone (fate_concat_ne_none hasc hne hb hbd hp)
  · intro b hb hbd hp habort
    rcases mem_concat.1 hb with hb | rfl
    · -- the new marker lies behind the batch
      have hlast : ∀ f : Int, markerOf p c = some .abort → c.baseOffset < b.baseOffset →
          c.lastOffset < f := by
        intro f _ hlt
        have := lastOffset_lt_of_concat hasc hb
        have := b.baseOffset_le_lastOffset
        omega
      rw [fate_concat hasc hb] at habort
      rcases or_eq_some_iff.1 habort with hold | ⟨hnone, -⟩
      · obtain ⟨f, hf, hle, hmarkers⟩ := h.aborted_of_fate b hb hbd hp hold
        exact ⟨f, mem_append_left _ hf, hle, forall_mem_concat.2 ⟨hmarkers, hlast f⟩⟩
      · obtain ⟨f, hf, hle⟩ := h.opened_of_undecided b hb hbd hp hnone
        obtain ⟨-, hmarkers⟩ := h.undecided_of_opened f hf
        refine ⟨f, mem_append_right _ (mem_toList.2 hf), hle,
          forall_mem_concat.2 ⟨?_, hlast f⟩⟩
        exact fun c' hc' hm _ => hmarkers c' hc' (by rw [hm]; exact nofun)
    · rw [fate_concat_self hasc] at habort
      cases habort
  · intro f hf
    rcases mem_append.1 hf with hf | hf
    · obtain ⟨a, ha, had, hp, hbase, habort⟩ := h.fate_of_aborted f hf
      refine ⟨a, mem_append_left _ ha, had, hp, hbase, ?_⟩
      rw [fate_concat hasc ha, habort]
      rfl
    · obtain ⟨⟨a, ha, had, hp, hbase, hnone⟩, -⟩ :=
        h.undecided_of_opened f (mem_toList.1 hf)
      refine ⟨a, mem_append_left _ ha, had, hp, hbase, ?_⟩
      rw [fate_concat hasc ha, hnone, hp, hc]
      rfl

end

theorem PartitionTxnState.producer_applyLogBatch_of_ne (st : PartitionTxnState)
    (hne : c.producerId ≠ p) : (st.applyLogBatch c).producer p = st.producer p := by
  rcases st.applyLogBatch_cases c with ⟨-, heq⟩ | ⟨-, heq⟩ | ⟨-, heq⟩ | ⟨heq, -⟩
  · rw [heq, producer, onTransactionalProduce, get?_upsert_of_ne hne.symm]
    rfl
  · rw [heq, producer, onCommit, get?_erase_of_ne hne.symm]
    rfl
  · rw [heq, producer, onAbort, get?_erase_of_ne hne.symm]
    cases st.ongoing.get? c.producerId <;> simp [producer, hne]
  · rw [heq]

theorem PartitionTxnState.producer_replay_of_neg (l : List (TxnBatch β)) (hp : p < 0) :
    (replay l).producer p = empty.producer p := by
  induction l using List.reverseRecOn with
  | nil => rfl
  | append_singleton l c ih =>
    rw [replay_concat]
    rcases eq_or_ne c.producerId p with heq | hne
    · rw [applyLogBatch, if_pos (heq ▸ hp), ih]
    · rw [producer_applyLogBatch_of_ne _ hne, ih]

theorem PartitionTxnState.mem_producer_aborted {st : PartitionTxnState} :
    f ∈ (st.producer p).aborted ↔ ⟨p, f⟩ ∈ st.aborted := by
  rw [producer, List.mem_map]
  constructor
  · rintro ⟨⟨p', f'⟩, he, rfl⟩
    obtain ⟨hmem, hp⟩ := mem_filter.1 he
    obtain rfl : p' = p := of_decide_eq_true hp
    exact hmem
  · exact fun he => ⟨_, mem_filter.2 ⟨he, decide_eq_true rfl⟩, rfl⟩

/-- One batch does to a producer's part of the index what it does to the producer's transactions in
the log. -/
theorem Tracks.applyLogBatch {st : PartitionTxnState} (h : Tracks p l (st.producer p))
    (hasc : Ascending (l ++ [c])) (hp : 0 ≤ p) :
    Tracks p (l ++ [c]) ((st.applyLogBatch c).producer p) := by
  rcases eq_or_ne c.producerId p with heq | hne
  · have hmarker : markerOf p c = c.marker := if_pos heq
    rcases st.applyLogBatch_cases c with ⟨hdata, hst⟩ | ⟨hm, hst⟩ | ⟨hm, hst⟩ | ⟨hst, hign⟩
    · rw [hst, heq, PartitionTxnState.producer, PartitionTxnState.onTransactionalProduce,
        get?_upsert_self]
      exact h.produce hasc hdata heq
    · rw [hst, heq, PartitionTxnState.producer, PartitionTxnState.onCommit, get?_erase_self]
      exact h.commit hasc (hmarker.trans hm)
    · have haborted : ((st.onAbort p).aborted.filter (·.producerId = p)).map (·.firstOffset) =
          (st.producer p).aborted ++ (st.producer p).opened.toList := by
        rw [PartitionTxnState.onAbort]
        cases hget : st.ongoing.get? p <;> simp [PartitionTxnState.producer, hget]
      rw [hst, heq, PartitionTxnState.producer, haborted, PartitionTxnState.onAbort,
        get?_erase_self]
      exact h.abort hasc (hmarker.trans hm)
    · rw [hst]
      rcases hign with hneg | ⟨hdata, hm⟩
      · omega
      · exact h.ignore hasc (hmarker.trans hm) fun hd => absurd hd hdata
  · rw [st.producer_applyLogBatch_of_ne hne]
    exact h.ignore hasc (if_neg hne) fun _ => hne

end

theorem tracks_replay (hasc : Ascending l) (hp : 0 ≤ p) :
    Tracks p l ((PartitionTxnState.replay l).producer p) := by
  induction l using List.reverseRecOn with
  | nil => exact tracks_empty
  | append_singleton l c ih =>
    rw [PartitionTxnState.replay_concat]
    exact (ih (pairwise_append.1 hasc).1).applyLogBatch hasc hp

end ChronikStream
