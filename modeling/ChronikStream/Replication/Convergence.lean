import ChronikStream.Lib.Run
import ChronikStream.Fetch.TieredFetch
import ChronikStream.Replication.ReplicaFetcher

/-!
# A follower that fetches converges to its leader

Leader and follower give a batch as many offsets as it decodes to records; `plan_batches` goes by
the header, which nothing on the produce path checks. `HeaderCounts` is the condition under which an
accepted batch is replicable (`StoredBatch.Replicable`). Then the follower's log is a prefix of the
leader's (`Converging`), and each response that holds the next batch whole makes it longer.
-/

namespace ChronikStream

open Bytes OffsetRange List Option ReplicaFetcher KafkaRecordBatch
open RecordBatchHeader (read read_eq_of_take_eq)

/-- A WAL read gives the batch since its range reaches the offset, and the fetch serves it. -/
def StoredBatch.Served (b : StoredBatch) (fetchOffset highWatermark : Int) : Prop :=
  fetchOffset ≤ b.lastOffset ∧ fetchOffset ≤ b.canonical.lastOffset ∧
    b.canonical.baseOffset < highWatermark
deriving Decidable

def fetchRawBytesFromWal (log : List StoredBatch) (fetchOffset highWatermark : Int) : List UInt8 :=
  (log.filter (·.Served fetchOffset highWatermark)).flatMap (·.wire)

section
variable {deserialize : List UInt8 → Option CanonicalRecord} {log : TieredLog deserialize} {o hi : Int}

/-- The batch of a WAL record as a log of stored batches has it. -/
def WalBatch.stored (w : WalBatch deserialize) : StoredBatch :=
  ⟨w.record.baseOffset, w.record.lastOffset, w.canonical⟩

theorem WalBatch.served_stored (w : WalBatch deserialize) :
    w.stored.Served o hi ↔ Overlaps w.wire o hi := by
  rw [StoredBatch.Served, stored, w.record_last, w.canonical_last, w.canonical_base]
  exact ⟨fun h => ⟨h.1, h.2.2⟩, fun h => ⟨h.1, h.1, h.2⟩⟩

/-- The WAL tier of a fetch answers with these bytes of its batches, or with the first of them. -/
theorem TieredLog.Shows.exists_take_fetchRawBytesFromWal {p : FetchHandler.Partition} {search : Search}
    {maxBytes : Int} (h : log.Shows p) (hsearch : search.Correct) :
    ∃ cut, FetchHandler.fetchRawBytesFromWal deserialize search o hi maxBytes p =
      FetchHandler.answer ((fetchRawBytesFromWal (log.wal.map (·.stored)) o hi).take cut) := by
  obtain ⟨ps, ⟨rest, hps⟩, heq, -⟩ := h.fetchRawBytesFromWal_eq hsearch
  have hall : fetchRawBytesFromWal (log.wal.map (·.stored)) o hi =
      ps.flatMap (·.bytes) ++ rest.flatMap (·.bytes) := by
    rw [← flatMap_append, hps, TieredLog.wires, fetchRawBytesFromWal, List.filter_map, List.filter_map,
      flatMap_map, flatMap_map]
    simp only [Function.comp_def, WalBatch.served_stored, ← WalBatch.toKafkaBatch]
    rfl
  rw [heq, hall]
  exact ⟨_, congrArg _ (take_left' rfl).symm⟩

end

/-- A fetch of batches with the bytes and offsets of stored ones is one from a log of those. -/
theorem fetchRawBytes_eq {fmt : WireFormat β} {log : List (TxnBatch β)} {fetchOffset : Nat} {hi : Int}
    {stored : TxnBatch β → StoredBatch} (hlt : fetchOffset < hi)
    (hstored : ∀ b ∈ log, (stored b).wire = fmt.encode b ∧ (stored b).lastOffset = b.lastOffset ∧
      (stored b).canonical.baseOffset = b.baseOffset ∧ (stored b).canonical.lastOffset = b.lastOffset) :
    fetchRawBytes fmt log fetchOffset hi = fetchRawBytesFromWal (log.map stored) fetchOffset hi := by
  rw [fetchRawBytes, if_pos hlt, fetchRawBytesFromWal, List.filter_map, flatMap_map]
  have hfilter : log.filter (fun b => (fetchOffset : Int) ≤ b.lastOffset ∧ b.baseOffset < hi) =
      log.filter ((·.Served fetchOffset hi) ∘ stored) := by
    refine filter_congr fun b hb => decide_eq_decide.2 ?_
    obtain ⟨-, hlast, hbase, hcanonical⟩ := hstored b hb
    rw [StoredBatch.Served, hlast, hbase, hcanonical]
    exact (and_self_left ..).symm
  rw [hfilter]
  exact flatMap_congr fun b hb => (hstored b (mem_of_mem_filter hb)).1.symm

/-- A leader's log, a follower's log and fetch position, and the first refusal of a response. -/
structure FollowerFetch where
  leader : StoredLog
  follower : List StoredBatch
  position : Int
  refusal : Option ApplyRefusal

/-- A client's batch reaches the leader, or the follower fetches and gets the first `cut` bytes. -/
inductive FollowerFetch.Action where
  | produce (epoch : Option Int) (recordsData : List UInt8)
  | fetch (cut : Nat)

namespace FollowerFetch

def fetch (codecs : Codecs) (s : FollowerFetch) (cut : Nat) : FollowerFetch :=
  let response := (fetchRawBytesFromWal s.leader.batches s.position s.leader.nextOffset).take cut
  let applied := applyFetchedRecords codecs s.follower response s.position
  match applied.2 with
  | .ok leo => { s with follower := applied.1, position := leo }
  | .error refusal => { s with follower := applied.1, refusal := s.refusal.or (some refusal) }

/-- A leader and a follower with empty logs; a produce that is answered with an error is no step. -/
def machine (codecs : Codecs) : Machine FollowerFetch Action where
  init := ⟨⟨[], 0⟩, [], 0, none⟩
  step s
    | .produce epoch recordsData =>
      (produceToPartition codecs epoch s.leader recordsData).map fun log => { s with leader := log }
    | .fetch cut => some (s.fetch codecs cut)

end FollowerFetch

/-! ## Batches whose header counts their records -/

/-- A batch at the front of `bytes` whose header says what its own bytes decode to. -/
structure CountedByHeader (codecs : Codecs) (bytes : List UInt8) (batch : KafkaRecordBatch)
    (consumed : Nat) : Prop where
  v2 : ¬ IsLegacy bytes
  batchLength : 49 ≤ batch.header.batchLength
  nonempty : batch.records ≠ []
  lastOffsetDelta : batch.header.lastOffsetDelta + 1 = batch.records.length
  last_ge : ∀ r ∈ batch.records.getLast?,
    batch.header.baseOffset ≤ wrap 8 (batch.header.baseOffset + r.offsetDelta)
  own_records : (decode codecs (bytes.take consumed)).map (·.1.records) =
    some batch.records

instance (codecs : Codecs) (bytes : List UInt8) (batch : KafkaRecordBatch) (consumed : Nat) :
    Decidable (CountedByHeader codecs bytes batch consumed) :=
  decidable_of_iff (¬ IsLegacy bytes ∧ 49 ≤ batch.header.batchLength ∧ batch.records ≠ [] ∧
      batch.header.lastOffsetDelta + 1 = batch.records.length ∧
      (∀ r ∈ batch.records.getLast?,
        batch.header.baseOffset ≤ wrap 8 (batch.header.baseOffset + r.offsetDelta)) ∧
      (decode codecs (bytes.take consumed)).map (·.1.records) =
        some batch.records)
    ⟨fun ⟨h₁, h₂, h₃, h₄, h₅, h₆⟩ => ⟨h₁, h₂, h₃, h₄, h₅, h₆⟩,
      fun ⟨h₁, h₂, h₃, h₄, h₅, h₆⟩ => ⟨h₁, h₂, h₃, h₄, h₅, h₆⟩⟩

/-- The header counts the records of the stored bytes, as many as are reserved, below `2 ^ 63`. -/
def FollowerFetch.HeaderCounts (codecs : Codecs) (s : FollowerFetch) : FollowerFetch.Action → Prop
  | .fetch _ => True
  | .produce epoch recordsData =>
    let bytes := reEncodedBytes epoch (wrap 8 s.leader.nextOffset) recordsData
    ∀ x ∈ decode codecs recordsData, ∀ y ∈ decode codecs bytes,
      CountedByHeader codecs bytes y.1 y.2 ∧ y.1.records.length = x.1.records.length ∧
        s.leader.nextOffset + x.1.records.length < 2 ^ 63

instance (codecs : Codecs) : DecidableRel (FollowerFetch.HeaderCounts codecs) := fun _ _ => by
  unfold FollowerFetch.HeaderCounts
  split <;> infer_instance

/-- The response holds the batch at the follower's position whole. -/
def FollowerFetch.Carries (s : FollowerFetch) : FollowerFetch.Action → Prop
  | .fetch cut => ∀ b ∈ s.leader.batches.find? (s.position ≤ ·.lastOffset), b.wire.length ≤ cut
  | .produce .. => True

instance : DecidableRel FollowerFetch.Carries := fun _ _ => by
  unfold FollowerFetch.Carries
  split <;> infer_instance

/-! ## What the leader stores -/

variable {codecs : Codecs} {s s' : FollowerFetch}

namespace CountedByHeader

section
variable (h : CountedByHeader codecs bytes batch consumed)
  (hdecode : decode codecs bytes = some (batch, consumed))
include h hdecode

theorem length_le : 17 ≤ bytes.length := by
  by_contra hshort
  rw [decode, if_pos (by omega)] at hdecode
  cases hdecode
  exact h.nonempty rfl

theorem consumed_eq :
    (consumed : Int) = 12 + batch.header.batchLength ∧ consumed ≤ bytes.length ∧
      batch.header = read bytes ∧ (read bytes).magic = 2 := by
  obtain ⟨hconsumed, hle, hlen, hmagic, hheader, -⟩ :=
    (decode_eq_some (h.length_le hdecode) h.v2).1 hdecode
  have hlt : (read bytes).batchLength < 2 ^ 31 :=
    ofBeInt_lt_of_length (length_slice (by omega))
  have hge := h.batchLength
  rw [hheader] at hge ⊢
  refine ⟨?_, hle, rfl, hmagic⟩
  rw [hconsumed, asUsize]
  omega

theorem own_bytes :
    (bytes.take consumed).length = consumed ∧
      read (bytes.take consumed) = batch.header ∧ ¬ IsLegacy (bytes.take consumed) ∧
      decode codecs (bytes.take consumed) = some (batch, consumed) := by
  obtain ⟨hconsumed, hle, hheader, hmagic⟩ := h.consumed_eq hdecode
  have hge := h.batchLength
  have hlength : (bytes.take consumed).length = consumed := length_take_of_le hle
  have htake : (bytes.take consumed).take 61 = bytes.take 61 := by
    rw [take_take, min_eq_left (by omega)]
  have hread : read (bytes.take consumed) = batch.header :=
    (read_eq_of_take_eq htake).trans hheader.symm
  have hv2 : ¬ IsLegacy (bytes.take consumed) := by
    apply not_isLegacy
    rw [hread, hheader]
    exact hmagic
  refine ⟨hlength, hread, hv2, ?_⟩
  obtain ⟨⟨batch', consumed'⟩, hown, hrecords⟩ := map_eq_some_iff.1 h.own_records
  obtain ⟨hconsumed', -, -, -, hheader', -⟩ := (decode_eq_some (by omega) hv2).1 hown
  obtain ⟨hwhole, -⟩ := (decode_eq_some (h.length_le hdecode) h.v2).1 hdecode
  have hsame : consumed' = consumed := by
    rw [hread, hheader] at hconsumed'
    exact hconsumed'.trans hwhole.symm
  have hbatch : batch' = batch := by
    cases batch
    cases batch'
    cases hrecords
    rw [mk.injEq]
    exact ⟨hheader'.trans hread, rfl⟩
  rw [hown, hsame, hbatch]

theorem stored (hc : CanonicalRecord.fromKafkaBatch codecs bytes = some c) :
    c.wire = .v2 (bytes.take consumed) ∧ c.records.length = batch.records.length ∧
      c.baseOffset = batch.header.baseOffset ∧ c.baseOffset ≤ c.lastOffset ∧
      CanonicalRecord.fromKafkaBatch codecs (bytes.take consumed) = some c := by
  obtain ⟨-, -, hv2, hown⟩ := h.own_bytes hdecode
  rw [CanonicalRecord.fromKafkaBatch, hdecode] at hc
  cases hc
  refine ⟨if_neg h.v2, length_map _, rfl, ?_, ?_⟩
  · dsimp only [CanonicalRecord.lastOffset]
    rw [getLast?_map]
    cases hlast : batch.records.getLast? with
    | none => exact le_refl _
    | some r => exact h.last_ge r hlast
  · rw [CanonicalRecord.fromKafkaBatch, hown]
    dsimp only [map_some]
    rw [if_neg hv2, if_neg h.v2, take_take, min_self]

theorem replicable {c : CanonicalRecord}
    (hc : CanonicalRecord.fromKafkaBatch codecs bytes = some c) {base : Int}
    (hbase : batch.header.baseOffset = base) :
    StoredBatch.Replicable codecs ⟨base, base + batch.records.length - 1, c⟩ := by
  obtain ⟨hconsumed, -, hheader, hmagic⟩ := h.consumed_eq hdecode
  obtain ⟨hlength, hread, -, -⟩ := h.own_bytes hdecode
  obtain ⟨hwire, hcount, hcbase, -, hdecodes⟩ := h.stored hdecode hc
  have hsize := h.batchLength
  have hdelta := h.lastOffsetDelta
  have hown : ∀ b : StoredBatch, b.canonical = c → b.wire = bytes.take consumed := by
    rintro b rfl
    rw [StoredBatch.wire, CanonicalRecord.toKafkaBatch, hwire]
  constructor
  case length_wire => rw [hown _ rfl]; omega
  case batchLength => rw [hown _ rfl, hread]; omega
  case magic => rw [hown _ rfl, hread, hheader, hmagic]
  case baseOffset => rw [hown _ rfl, hread, hbase]
  case lastOffset => rw [hown _ rfl, hread]; dsimp only; omega
  case decodes => rw [hown _ rfl, hdecodes]
  case canonical_base => exact hcbase.trans hbase
  case nonempty =>
    have hpos := length_pos_iff.2 h.nonempty
    rw [← hcount] at hpos
    exact ne_nil_of_length_pos hpos
  case count => rw [hcount]

end

end CountedByHeader

/-- A produce whose header counts its records appends a replicable batch at the log end, and the log
ends after it. -/
theorem FollowerFetch.produced (hok : s.HeaderCounts codecs (.produce epoch data))
    (h : produceToPartition codecs epoch s.leader data = some log) :
    ∃ b : StoredBatch, log.batches = s.leader.batches ++ [b] ∧ b.Replicable codecs ∧
      b.baseOffset ≤ b.canonical.lastOffset ∧ b.baseOffset = s.leader.nextOffset ∧
      (log.nextOffset : Int) = b.lastOffset + 1 := by
  obtain ⟨hlen, temp, kafka, c, htemp, hkafka, hc, rfl⟩ := produceToPartition_eq_some h
  obtain ⟨⟨batch, consumed⟩, hbatch, -⟩ := map_eq_some_iff.1 hc
  obtain ⟨hcounted, hcount, hoffset⟩ := hok temp htemp (batch, consumed) hbatch
  have hfits : Fits 8 s.leader.nextOffset :=
    fits_of_lt (lt_of_le_of_lt (Nat.le_add_right _ _) hoffset)
  rw [wrap_eq hfits] at hkafka hc hbatch hcounted ⊢
  dsimp only at hcounted hcount
  obtain ⟨hlength, hfront, hmagic⟩ := reEncodedBytes_frame epoch hlen hfits
  have hv2 : ¬ IsLegacy data := by
    have := hcounted.v2
    rwa [IsLegacy, hlength, hmagic] at this
  have hbase : batch.header.baseOffset = s.leader.nextOffset :=
    (congrArg RecordBatchHeader.baseOffset (hcounted.consumed_eq hbatch).2.2.1).trans hfront
  have hkafkaCount : kafka.1.records.length = batch.records.length := by
    rw [decode_withBaseOffset hlen hv2 htemp hkafka, hcount]
  obtain ⟨hwire, -, hcbase, hclast, -⟩ := hcounted.stored hbatch hc
  rw [hwire, hkafkaCount]
  refine ⟨_, rfl, hcounted.replicable hbatch hc hbase, ?_, rfl, ?_⟩
  · rw [← hbase, ← hcbase]
    exact hclast
  · dsimp only
    omega

/-! ## Convergence -/

/-- The follower holds the leader's log up to its position, and the rest can be replicated. -/
structure Converging (codecs : Codecs) (s : FollowerFetch) : Prop where
  replicable : ∀ b ∈ s.leader.batches, b.Replicable codecs
  served : ∀ b ∈ s.leader.batches, b.baseOffset ≤ b.canonical.lastOffset
  contiguous : ContiguousFrom 0 s.leader.batches
  logEnd : endFrom 0 s.leader.batches = s.leader.nextOffset
  held : s.follower <+: s.leader.batches
  position : s.position = endFrom 0 s.follower
  refusal : s.refusal = none

namespace Converging

section
variable (h : Converging codecs s)
include h

theorem produce (hok : s.HeaderCounts codecs (.produce epoch data))
    (hstep : produceToPartition codecs epoch s.leader data = some log) :
    Converging codecs { s with leader := log } := by
  obtain ⟨b, hbatches, hb, hserved, hbase, hnext⟩ := FollowerFetch.produced hok hstep
  constructor
  case replicable =>
    rw [hbatches]
    exact forall_mem_concat.2 ⟨h.replicable, hb⟩
  case served =>
    rw [hbatches]
    exact forall_mem_concat.2 ⟨h.served, hserved⟩
  case contiguous =>
    rw [hbatches]
    refine contiguousFrom_append.2 ⟨h.contiguous, hbase.trans h.logEnd.symm, ?_, trivial⟩
    rw [h.logEnd, ← hbase]
    exact hb.base_le_last
  case logEnd =>
    rw [hbatches, endFrom_append]
    exact hnext.symm
  case held =>
    rw [hbatches]
    exact h.held.trans (prefix_append _ _)
  case position => exact h.position
  case refusal => exact h.refusal

theorem fetchRawBytesFromWal_eq (hsplit : s.leader.batches = s.follower ++ missing) :
    fetchRawBytesFromWal s.leader.batches s.position s.leader.nextOffset =
      missing.flatMap (·.wire) := by
  have hcontiguous := h.contiguous
  rw [hsplit] at hcontiguous
  obtain ⟨hheld, hmissing⟩ := contiguousFrom_append.1 hcontiguous
  have hlogEnd := h.logEnd
  rw [hsplit, endFrom_append] at hlogEnd
  have hnone : ∀ b ∈ s.follower, ¬ b.Served s.position s.leader.nextOffset := by
    intro b hb hserved
    have hlast : b.lastOffset < endFrom 0 s.follower := (hheld.bounds hb).2.2
    have := hserved.1
    rw [h.position] at this
    omega
  have hall : ∀ b ∈ missing, b.Served s.position s.leader.nextOffset := by
    intro b hb
    have hmem : b ∈ s.leader.batches := hsplit ▸ mem_append_right _ hb
    obtain ⟨hlo, hle, hhi⟩ := hmissing.bounds hb
    have hlo : s.position ≤ b.baseOffset := h.position ▸ hlo
    have hle : b.baseOffset ≤ b.lastOffset := hle
    have hhi : b.lastOffset < s.leader.nextOffset := hlogEnd ▸ hhi
    have hserved := h.served b hmem
    have hbase := (h.replicable b hmem).canonical_base
    exact ⟨by omega, by omega, by omega⟩
  rw [fetchRawBytesFromWal, hsplit, filter_append,
    filter_eq_nil_iff.2 fun b hb => by simpa using hnone b hb,
    filter_eq_self.2 fun b hb => by simpa using hall b hb, nil_append]

theorem fetch_eq (hsplit : s.leader.batches = s.follower ++ missing) (cut : Nat) :
    s.fetch codecs cut = { s with
      follower := s.follower ++ whole cut missing
      position := endFrom 0 (s.follower ++ whole cut missing) } := by
  have hcontiguous := h.contiguous
  rw [hsplit] at hcontiguous
  have hmissing : ContiguousFrom s.position missing := by
    rw [h.position]
    exact (contiguousFrom_append.1 hcontiguous).2
  have hrep : ∀ b ∈ missing, b.Replicable codecs := fun b hb =>
    h.replicable b (hsplit ▸ mem_append_right _ hb)
  rw [FollowerFetch.fetch, h.fetchRawBytesFromWal_eq hsplit]
  rw [applyFetchedRecords_wires hrep hmissing]
  rw [endFrom_append, h.position]

theorem fetch (cut : Nat) : Converging codecs (s.fetch codecs cut) := by
  obtain ⟨missing, hsplit⟩ := h.held
  rw [h.fetch_eq hsplit.symm]
  refine { h with held := ?_, position := rfl }
  obtain ⟨rest, hrest⟩ := prefix_whole cut missing
  refine ⟨rest, ?_⟩
  rw [append_assoc, hrest, hsplit]

theorem step (hok : s.HeaderCounts codecs a)
    (hstep : (FollowerFetch.machine codecs).step s a = some s') : Converging codecs s' := by
  cases a with
  | produce epoch data =>
    obtain ⟨log, hlog, rfl⟩ := map_eq_some_iff.1 hstep
    exact h.produce hok hlog
  | fetch cut =>
    cases hstep
    exact h.fetch cut

/-- A response that holds the next batch whole makes the follower's log longer, unless nothing is
missing. -/
theorem length_fetch (hcarries : s.Carries (.fetch cut)) :
    (s.fetch codecs cut).follower = s.leader.batches ∨
      s.follower.length < (s.fetch codecs cut).follower.length := by
  obtain ⟨missing, hsplit⟩ := h.held
  rw [h.fetch_eq hsplit.symm]
  cases missing with
  | nil => exact .inl (by rw [whole, hsplit])
  | cons b missing =>
  right
  have hcontiguous := h.contiguous
  rw [← hsplit] at hcontiguous
  obtain ⟨hheld, hbase, hle, -⟩ := contiguousFrom_append.1 hcontiguous
  have hfind : s.leader.batches.find? (s.position ≤ ·.lastOffset) = some b := by
    rw [← hsplit, find?_append, find?_eq_none.2, none_or, find?_cons_of_pos]
    · rw [decide_eq_true_eq, h.position]
      exact hle
    · intro b' hb'
      have hlast : b'.lastOffset < endFrom 0 s.follower := (hheld.bounds hb').2.2
      rw [decide_eq_true_eq, h.position]
      omega
  have hne : whole cut (b :: missing) ≠ [] := by
    rw [whole, if_pos (hcarries b hfind)]
    exact cons_ne_nil _ _
  have hpos := length_pos_iff.2 hne
  rw [length_append]
  omega

/-- As many responses as there are batches missing, each with the next batch whole, leave none
missing. -/
theorem run {cuts : List Nat} (henough : s.leader.batches.length ≤ s.follower.length + cuts.length)
    (hrun : (FollowerFetch.machine codecs).runWith FollowerFetch.Carries s (cuts.map .fetch) =
      some s') : Converging codecs s' ∧ s'.leader = s.leader ∧ s'.follower = s.leader.batches := by
  induction cuts generalizing s with
  | nil =>
    cases hrun
    exact ⟨h, rfl, h.held.eq_of_length_le henough⟩
  | cons cut cuts ih =>
    obtain ⟨hcarries, hrun⟩ := ite_none_right_eq_some.1 hrun
    have hleader : (s.fetch codecs cut).leader = s.leader := by
      obtain ⟨missing, hsplit⟩ := h.held
      rw [h.fetch_eq hsplit.symm]
    rw [← hleader]
    refine ih (h.fetch cut) ?_ hrun
    rw [length_cons] at henough
    rcases h.length_fetch hcarries with hall | hlonger
    · rw [hleader, hall]
      omega
    · rw [hleader]
      omega

end

end Converging

theorem converging_init (codecs : Codecs) :
    Converging codecs (FollowerFetch.machine codecs).init where
  replicable := forall_mem_nil _
  served := forall_mem_nil _
  contiguous := trivial
  logEnd := rfl
  held := nil_prefix
  position := rfl
  refusal := rfl

section
open Machine FollowerFetch

/-- Where headers count their records, no response is refused and the follower holds a prefix of the
leader's batches up to its position; after as many further responses as batches are missing, each
with the next one whole, it holds the leader's log. -/
theorem follower_converges (codecs : Codecs) (s : FollowerFetch)
    (h : Reaches (machine codecs) (HeaderCounts codecs) s) :
    s.refusal = none ∧ s.follower <+: s.leader.batches ∧
      s.position = endFrom 0 s.follower ∧
      ∀ (cuts : List Nat) (s' : FollowerFetch),
        s.leader.batches.length ≤ s.follower.length + cuts.length →
        (machine codecs).runWith Carries s (cuts.map .fetch) = some s' →
        s'.refusal = none ∧ s'.follower = s.leader.batches ∧ s'.position = s.leader.nextOffset := by
  have hinv : Converging codecs s :=
    h.invariant (converging_init codecs) fun _ _ _ hinv hok hstep => hinv.step hok hstep
  refine ⟨hinv.refusal, hinv.held, hinv.position, fun cuts s' henough hrun => ?_⟩
  obtain ⟨hend, hleader, hall⟩ := hinv.run henough hrun
  refine ⟨hend.refusal, hall, ?_⟩
  rw [hend.position, hall, hinv.logEnd]

namespace Convergence

/-- No codec and no format before v2. -/
def plain : Codecs := ⟨fun _ => none, fun _ => none, fun _ => none, fun _ => none, fun _ => none⟩

/-- A v2 batch of `count` records with neither key nor value. -/
def clientBatch (lastOffsetDelta : Int) (count : Nat) : List UInt8 :=
  let records := (List.range count).flatMap fun i => [12, 0, 0, 2 * UInt8.ofNat i, 1, 1, 0]
  beInt 8 0 ++ beInt 4 (49 + records.length) ++ beInt 4 (-1) ++ [2] ++ beInt 4 0 ++ beInt 2 0 ++
    beInt 4 lastOffsetDelta ++ beInt 8 0 ++ beInt 8 0 ++ beInt 8 (-1) ++ beInt 2 (-1) ++ beInt 4 (-1) ++
    beInt 4 count ++ records

/-- Two records under a header that ends the batch after the first, then one record. -/
def miscounted : List Action :=
  [.produce (some 0) (clientBatch 0 2), .produce (some 0) (clientBatch 0 1), .fetch 1000]

/-- Two batches whose headers count their records, and a response cut in the second. -/
def counted : List Action :=
  [.produce (some 0) (clientBatch 1 2), .produce (some 0) (clientBatch 0 1), .fetch 100]

end Convergence

open Convergence

/-- Two records with a `last_offset_delta` of 0 take the offsets 0 and 1; the follower expects 1
behind them and reports a gap. -/
theorem gap_behind_miscounted_batch : ¬ ∀ (codecs : Codecs) (s : FollowerFetch),
    Reaches (machine codecs) Always s → s.refusal = none := by
  intro h
  obtain ⟨s, hs, hgap⟩ := exists_reaches_of_run (machine plain) Always
    miscounted (fun s => s.refusal = some (.gap 1 2)) (by decide +kernel)
  have hnone := h _ s hs
  rw [hnone] at hgap
  cases hgap

/-- The run `counted` converges with one more response. -/
theorem follower_converges_counted : ∃ s s' : FollowerFetch,
    Reaches (machine plain) (HeaderCounts plain) s ∧
      s.follower.length = 1 ∧ s.leader.nextOffset = 3 ∧
      s'.refusal = none ∧ s'.follower = s.leader.batches ∧ s'.position = 3 := by
  obtain ⟨s, hs, hcheck⟩ := exists_reaches_of_run (machine plain)
    (HeaderCounts plain) counted
    (fun s => decide (s.leader.batches.length = 2 ∧ s.follower.length = 1 ∧ s.leader.nextOffset = 3) &&
      ((machine plain).runWith Carries s
        ([80].map .fetch)).isSome) (by decide +kernel)
  rw [Bool.and_eq_true, decide_eq_true_eq] at hcheck
  obtain ⟨⟨htwo, hone, hnext⟩, hrun⟩ := hcheck
  obtain ⟨s', hs'⟩ := isSome_iff_exists.1 hrun
  have hconverges := (follower_converges plain s hs).2.2.2 [80] s'
    (by rw [htwo, hone]; decide) hs'
  rw [hnext] at hconverges
  exact ⟨s, s', hs, hone, hnext, hconverges⟩

end

end ChronikStream
