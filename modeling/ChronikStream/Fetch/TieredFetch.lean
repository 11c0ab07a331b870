import ChronikStream.Produce.RecordBatch
import ChronikStream.Wal.IndexedRead
import ChronikStream.Wal.TailCache
import Mathlib.Data.List.Perm.Subperm

/-!
# The raw bytes of a fetch, from the first tier that has any

`fetch_raw_bytes` asks the buffer, the WAL, the raw segments and the Tantivy archives in turn. A
read of the WAL below its start gives the WAL from its beginning on, and several segments are taken
in the order of a hash map. So an answer begins at the fetch offset exactly where the WAL holds it,
or one segment holds everything up to the high watermark.
-/

namespace ChronikStream

open Bytes OffsetRange List RecordBatchHeader

/-! ## Batches on the wire -/

/-- The offsets a batch's header shows. -/
structure BatchRange where
  baseOffset : Int
  lastOffset : Int
  deriving DecidableEq

instance : OffsetRange BatchRange := ⟨BatchRange.baseOffset, BatchRange.lastOffset⟩

def RecordBatchHeader.range (h : RecordBatchHeader) : BatchRange :=
  ⟨h.baseOffset, h.baseOffset + h.lastOffsetDelta⟩

/-- The batches of a response as a consumer walks through them, by their headers. -/
def batchRanges : Nat → List UInt8 → List BatchRange
  | 0, _ => []
  | fuel + 1, bytes =>
    if bytes.length < 61 then []
    else
      let header := read bytes
      header.range :: batchRanges fuel (bytes.drop (12 + header.batchLength.toNat))

def rangesOf (bytes : List UInt8) : List BatchRange := batchRanges bytes.length bytes

/-- A whole batch: its header has its length, and at least one offset. -/
structure WireBatch where
  bytes : List UInt8
  length_bytes : 61 ≤ bytes.length
  batchLength : (read bytes).batchLength = bytes.length - 12
  lastOffsetDelta : 0 ≤ (read bytes).lastOffsetDelta

def WireBatch.range (b : WireBatch) : BatchRange := (read b.bytes).range

instance : OffsetRange WireBatch := ⟨fun b => b.range.baseOffset, fun b => b.range.lastOffset⟩

/-! ## The tiers -/

namespace FetchHandler

structure BufferedBatch where
  baseOffset : Int
  lastOffset : Int
  rawBatch : List UInt8

/-- A segment of the metadata store with the raw batches that its object holds. -/
structure RawSegment where
  segmentId : String
  startOffset : Int
  endOffset : Int
  rawKafkaBatches : List UInt8

instance : OffsetRange RawSegment := ⟨RawSegment.startOffset, RawSegment.endOffset⟩

/-- What a fetch finds of a partition: the buffer, the WAL with its tail in memory, the cached
segments and those of the metadata store, and what Tantivy answers. -/
structure Partition where
  buffer : List BufferedBatch
  tail : TailCache
  committedThrough : Int
  files : List (Nat × List UInt8)
  segmentCache : Option (List RawSegment)
  segments : List RawSegment
  tantivy : Option (List UInt8)

inductive FetchError where
  | panic
  deriving DecidableEq

def answer (bytes : List UInt8) : Option (List UInt8) := if bytes = [] then none else some bytes

variable (deserialize : List UInt8 → Option CanonicalRecord) (search : Search)
  (fetchOffset highWatermark maxBytes : Int)

def combineBuffer : List BufferedBatch → List UInt8 → List UInt8
  | [], combined => combined
  | b :: bs, combined =>
    if fetchOffset ≤ b.lastOffset ∧ b.baseOffset < highWatermark then
      if asUsize maxBytes < combined.length + b.rawBatch.length ∧ combined ≠ [] then combined
      else combineBuffer bs (combined ++ b.rawBatch)
    else combineBuffer bs combined

def tryFetchRawFromBuffer (p : Partition) : Option (List UInt8) :=
  answer (combineBuffer fetchOffset highWatermark maxBytes p.buffer [])

/-- `WalManager::read_from`: the tail if it answers, and otherwise the files through their index. -/
def walReadFrom (p : Partition) (maxRecords : Nat) : List WalRecord :=
  match p.tail.readFrom fetchOffset maxRecords p.committedThrough with
  | some records => records
  | none => (PartitionIndex.readFrom search [] p.files fetchOffset maxRecords).2

/-- The bytes of a WAL record, if its batch is in the range. -/
def recordBytes (r : WalRecord) : List UInt8 :=
  match deserialize r.canonicalData with
  | some c =>
    if fetchOffset ≤ c.lastOffset ∧ c.baseOffset < highWatermark then c.toKafkaBatch else []
  | none => []

def fetchRawBytesFromWal (p : Partition) : Option (List UInt8) :=
  let maxRecords := max 10000 (asUsize maxBytes / 10)
  answer ((walReadFrom search fetchOffset p maxRecords).flatMap
    (recordBytes deserialize fetchOffset highWatermark))

/-- `get_segments_for_range`: what the cache has of the range, if it has anything. -/
def getSegmentsForRange (p : Partition) : List RawSegment :=
  let relevant := (p.segmentCache.getD []).filter (Overlaps · fetchOffset highWatermark)
  if relevant ≠ [] then relevant else p.segments.filter (Overlaps · fetchOffset highWatermark)

/-- The loop over the batches of one segment. A batch that would exceed `max_bytes` ends it; one
that is cut off panics. -/
def combineBatches : Nat → List UInt8 → List UInt8 → Except FetchError (List UInt8)
  | 0, _, combined => .ok combined
  | fuel + 1, raw, combined =>
    if raw.length < 61 then .ok combined
    else
      let header := read raw
      let totalBatchSize := 12 + asUsize header.batchLength
      if Overlaps header.range fetchOffset highWatermark then
        if asUsize maxBytes < combined.length + totalBatchSize ∧ combined ≠ [] then .ok combined
        else if raw.length < totalBatchSize then .error .panic
        else combineBatches fuel (raw.drop totalBatchSize) (combined ++ raw.take totalBatchSize)
      else combineBatches fuel (raw.drop totalBatchSize) combined

/-- The loop over the segments; one without raw batches ends it without an answer. -/
def combineSegments : List RawSegment → List UInt8 → Except FetchError (Option (List UInt8))
  | [], combined => .ok (answer combined)
  | s :: rest, combined =>
    if s.rawKafkaBatches = [] then .ok none
    else do
      let combined ← combineBatches fetchOffset highWatermark maxBytes s.rawKafkaBatches.length
        s.rawKafkaBatches combined
      combineSegments rest combined

def tryFetchRawFromSegments (p : Partition) : Except FetchError (Option (List UInt8)) :=
  combineSegments fetchOffset highWatermark maxBytes (getSegmentsForRange fetchOffset highWatermark p) []

def fetchRawBytes (p : Partition) : Except FetchError (Option (List UInt8)) :=
  match tryFetchRawFromBuffer fetchOffset highWatermark maxBytes p with
  | some bytes => .ok (some bytes)
  | none =>
    match fetchRawBytesFromWal deserialize search fetchOffset highWatermark maxBytes p with
    | some bytes => .ok (some bytes)
    | none => do
      match ← tryFetchRawFromSegments fetchOffset highWatermark maxBytes p with
      | some bytes => return some bytes
      | none => return p.tantivy

end FetchHandler

/-! ## The layout -/

/-- A segment with its batches, of which there is at least one. -/
structure StoredSegment where
  segmentId : String
  batches : List WireBatch
  ne_nil : batches ≠ []

/-- The segment as the metadata store and the object store have it. -/
def StoredSegment.raw (s : StoredSegment) : FetchHandler.RawSegment where
  segmentId := s.segmentId
  startOffset := base (s.batches.head s.ne_nil)
  endOffset := last (s.batches.getLast s.ne_nil)
  rawKafkaBatches := s.batches.flatMap (·.bytes)

instance : OffsetRange StoredSegment := ⟨fun s => s.raw.startOffset, fun s => s.raw.endOffset⟩

/-- A WAL record with the batch that is served for it. -/
structure WalBatch (deserialize : List UInt8 → Option CanonicalRecord) where
  record : WalRecord
  canonical : CanonicalRecord
  wire : WireBatch
  decodes : deserialize record.canonicalData = some canonical
  toKafkaBatch : canonical.toKafkaBatch = wire.bytes
  canonical_base : canonical.baseOffset = base wire
  canonical_last : canonical.lastOffset = last wire
  record_base : record.baseOffset = base wire
  record_last : record.lastOffset = last wire

/-- A partition whose batches below an offset are in raw segments and whose others are in the WAL.
-/
structure TieredLog (deserialize : List UInt8 → Option CanonicalRecord) where
  logStart : Int
  segments : List StoredSegment
  files : List (Nat × SegmentImage)
  wal : List (WalBatch deserialize)
  records : files.flatMap (·.2.records) = wal.map (·.record)
  contiguous : ContiguousFrom logStart (segments.flatMap (·.batches) ++ wal.map (·.wire))

namespace TieredLog

open FetchHandler

variable {deserialize : List UInt8 → Option CanonicalRecord}

/-- The offset from which on the WAL has the batches. -/
def walStart (log : TieredLog deserialize) : Int :=
  endFrom log.logStart (log.segments.flatMap (·.batches))

def logEnd (log : TieredLog deserialize) : Int := endFrom log.walStart (log.wal.map (·.wire))

/-- Nothing in the buffer, the tail of the WAL in memory, the segments in any order, and some of
them in the cache. -/
structure Shows (log : TieredLog deserialize) (p : Partition) : Prop where
  buffer : p.buffer = []
  tail : p.tail.records <:+ log.wal.map (·.record)
  tail_from : ∀ start ∈ p.tail.contiguousFrom, ∀ r ∈ p.tail.records.head?, r.baseOffset ≤ start
  files : p.files = log.files.map fun f => (f.1, f.2.bytes)
  segments : p.segments.Perm (log.segments.map (·.raw))
  cache : ∀ cached ∈ p.segmentCache, cached.Subperm (log.segments.map (·.raw))

end TieredLog

/-! ## Walking through batches -/

section
variable {bs : List WireBatch} {o : Int}

theorem WireBatch.read_append (b : WireBatch) (rest : List UInt8) :
    read (b.bytes ++ rest) = read b.bytes :=
  read_eq_of_take_eq (take_append_of_le_length b.length_bytes)

theorem WireBatch.base_le_last (b : WireBatch) : base b ≤ last b := by
  have := b.lastOffsetDelta
  show (read b.bytes).baseOffset ≤
    (read b.bytes).baseOffset + (read b.bytes).lastOffsetDelta
  omega

theorem WireBatch.size_eq (b : WireBatch) :
    12 + (read b.bytes).batchLength.toNat = b.bytes.length ∧
      12 + asUsize (read b.bytes).batchLength = b.bytes.length := by
  have hlen := b.length_bytes
  have hbatch := b.batchLength
  have hlt : (read b.bytes).batchLength < 2 ^ 31 :=
    ofBeInt_lt_of_length (length_slice (by omega))
  rw [asUsize]
  omega

theorem batchRanges_flatMap (hfuel : bs.length ≤ fuel) :
    batchRanges fuel (bs.flatMap (·.bytes)) = bs.map (·.range) := by
  induction bs generalizing fuel with
  | nil => cases fuel <;> rfl
  | cons b bs ih =>
    cases fuel with
    | zero => exact absurd hfuel (Nat.not_succ_le_zero _)
    | succ fuel =>
    have hlen := b.length_bytes
    rw [flatMap_cons, batchRanges, if_neg (by rw [length_append]; omega), b.read_append]
    dsimp only
    rw [b.size_eq.1, drop_left, ih (Nat.le_of_succ_le_succ hfuel)]
    rfl

theorem length_le_length_flatMap_bytes (bs : List WireBatch) :
    bs.length ≤ (bs.flatMap (·.bytes)).length := by
  induction bs with
  | nil => exact le_refl 0
  | cons b bs ih =>
    have := b.length_bytes
    rw [flatMap_cons, length_append, length_cons]
    omega

theorem flatMap_bytes_ne_nil (hne : bs ≠ []) : bs.flatMap (·.bytes) ≠ [] :=
  length_pos_iff.1
    (lt_of_lt_of_le (length_pos_iff.2 hne) (length_le_length_flatMap_bytes bs))

theorem startsAt_rangesOf : StartsAt o (rangesOf (bs.flatMap (·.bytes))) ↔ StartsAt o bs := by
  rw [rangesOf, batchRanges_flatMap (length_le_length_flatMap_bytes bs)]
  exact startsAt_map (fun _ => rfl) fun _ => rfl

end

/-! ## The segments -/

namespace FetchHandler

section
variable {bs : List WireBatch} {fetchOffset highWatermark maxBytes : Int} {combined : List UInt8}

/-- The batches of a segment in the range are added from the first on, and the first where nothing
was before it. -/
theorem combineBatches_flatMap (hfuel : bs.length ≤ fuel) :
    ∃ ps, ps <+: bs.filter (Overlaps · fetchOffset highWatermark) ∧
      combineBatches fetchOffset highWatermark maxBytes fuel (bs.flatMap (·.bytes)) combined =
        .ok (combined ++ ps.flatMap (·.bytes)) ∧
      (combined = [] → bs.filter (Overlaps · fetchOffset highWatermark) ≠ [] → ps ≠ []) := by
  induction bs generalizing fuel combined with
  | nil =>
    refine ⟨[], nil_prefix, ?_, fun _ h => absurd rfl h⟩
    rw [flatMap_nil, append_nil]
    cases fuel <;> rfl
  | cons b bs ih =>
    cases fuel with
    | zero => exact absurd hfuel (Nat.not_succ_le_zero _)
    | succ fuel =>
    have hlen := b.length_bytes
    have hfuel := Nat.le_of_succ_le_succ hfuel
    rw [flatMap_cons, combineBatches, if_neg (by rw [length_append]; omega), b.read_append]
    dsimp only
    rw [b.size_eq.2, drop_left, take_left]
    have hrange : Overlaps (read b.bytes).range fetchOffset highWatermark ↔
      Overlaps b fetchOffset highWatermark := Iff.rfl
    by_cases hin : Overlaps b fetchOffset highWatermark
    · rw [if_pos (hrange.2 hin), filter_overlaps_cons_of_pos hin]
      split
      case isTrue hmax =>
        exact ⟨[], nil_prefix, by rw [flatMap_nil, append_nil], fun h => absurd h hmax.2⟩
      case isFalse =>
      obtain ⟨ps, hps, heq, -⟩ : ∃ ps, ps <+: _ ∧
          combineBatches _ _ maxBytes fuel _ (combined ++ b.bytes) = _ ∧ _ := ih hfuel
      refine ⟨b :: ps, (prefix_cons_inj b).2 hps, ?_, fun _ _ => cons_ne_nil _ _⟩
      rw [if_neg (by rw [length_append]; omega), heq, flatMap_cons, append_assoc]
    · rw [if_neg (mt hrange.1 hin), filter_overlaps_cons_of_neg hin]
      exact ih hfuel

/-- Of a segment of the layout the batches in the range are added from the first on, up to some one.
-/
theorem combineSegments_cons (s : StoredSegment) (rest : List RawSegment) :
    ∃ ps, ps <+: s.batches.filter (Overlaps · fetchOffset highWatermark) ∧
      combineSegments fetchOffset highWatermark maxBytes (s.raw :: rest) combined =
        combineSegments fetchOffset highWatermark maxBytes rest (combined ++ ps.flatMap (·.bytes)) ∧
      (combined = [] → s.batches.filter (Overlaps · fetchOffset highWatermark) ≠ [] → ps ≠ []) := by
  obtain ⟨ps, hps, heq, hne⟩ := combineBatches_flatMap (length_le_length_flatMap_bytes s.batches)
  have hraw : s.raw.rawKafkaBatches ≠ [] := flatMap_bytes_ne_nil s.ne_nil
  refine ⟨ps, hps, ?_, hne⟩
  rw [combineSegments, if_neg hraw]
  rw [show combineBatches _ _ _ s.raw.rawKafkaBatches.length s.raw.rawKafkaBatches combined = _
    from heq]
  rfl

theorem exists_combineSegments (segs : List StoredSegment) :
    ∃ ps : List WireBatch,
      combineSegments fetchOffset highWatermark maxBytes (segs.map (·.raw)) combined =
        .ok (answer (combined ++ ps.flatMap (·.bytes))) := by
  induction segs generalizing combined with
  | nil =>
    refine ⟨[], ?_⟩
    rw [flatMap_nil, append_nil]
    rfl
  | cons s segs ih =>
    obtain ⟨ps, -, heq, -⟩ := combineSegments_cons s (segs.map (·.raw))
    obtain ⟨ps', heq'⟩ := @ih (combined ++ ps.flatMap (·.bytes))
    refine ⟨ps ++ ps', ?_⟩
    rw [map_cons, heq, heq', flatMap_append, append_assoc]

end

end FetchHandler

/-! ## The WAL -/

section
variable {deserialize : List UInt8 → Option CanonicalRecord} {log : TieredLog deserialize} {o : Int}

theorem foldl_keep_isPrefix (o : Int) (maxRecords : Nat) (rs : List WalRecord) (messages : Nat)
    (acc : List WalRecord) :
    ∃ out, out <+: rs.filter (o ≤ ·.lastOffset) ∧
      (rs.foldl (keep o maxRecords) (messages, acc)).2 = acc ++ out ∧
      (messages < maxRecords → rs.filter (o ≤ ·.lastOffset) ≠ [] → out ≠ []) := by
  induction rs generalizing messages acc with
  | nil => exact ⟨[], nil_prefix, (append_nil _).symm, fun _ h => absurd rfl h⟩
  | cons r rs ih =>
    rw [foldl_cons, keep, filter_cons]
    by_cases hr : o ≤ r.lastOffset
    · rw [if_pos (decide_eq_true hr)]
      by_cases hroom : messages < maxRecords
      · rw [if_pos ⟨hr, hroom⟩]
        obtain ⟨out, hout, heq, -⟩ := ih (messages + r.layout.messages) (acc ++ [r])
        refine ⟨r :: out, (prefix_cons_inj r).2 hout, ?_, fun _ _ => cons_ne_nil _ _⟩
        rw [heq, append_assoc, singleton_append]
      · rw [if_neg fun h => hroom h.2, foldl_keep_of_le (not_lt.1 hroom)]
        exact ⟨[], nil_prefix, (append_nil _).symm, fun h => absurd h hroom⟩
    · rw [if_neg (by rwa [decide_eq_true_iff]), if_neg fun h => hr h.1]
      exact ih messages acc

theorem collect_isPrefix (messages : Nat) :
    TailCache.collect o maxRecords mark messages rs <+: rs.filter (o ≤ ·.lastOffset) := by
  induction rs generalizing messages with
  | nil => exact nil_prefix
  | cons r rs ih =>
    rw [TailCache.collect, filter_cons]
    by_cases hr : o ≤ r.lastOffset
    · rw [if_neg (not_lt.2 hr), if_pos (decide_eq_true hr)]
      split
      case isTrue => exact nil_prefix
      case isFalse =>
      split
      case isTrue => exact nil_prefix
      case isFalse => exact (prefix_cons_inj r).2 (ih _)
    · rw [if_pos (not_le.1 hr), if_neg (by rwa [decide_eq_true_iff])]
      exact ih messages

end

namespace TieredLog

open FetchHandler

section
variable {deserialize : List UInt8 → Option CanonicalRecord} {log : TieredLog deserialize}
  {p : Partition} {search : Search} {o hi maxBytes : Int}

def wires (log : TieredLog deserialize) : List WireBatch := log.wal.map (·.wire)

section
variable (log : TieredLog deserialize)

theorem contiguousFrom_wires : ContiguousFrom log.walStart log.wires :=
  (contiguousFrom_append.1 log.contiguous).2

theorem ascending_records :
    (log.wal.map (·.record)).Pairwise fun a b => a.lastOffset < b.baseOffset := by
  refine pairwise_map.2 ((pairwise_map.1 log.contiguousFrom_wires.ascending).imp fun {a b} h => ?_)
  rwa [a.record_last, b.record_base]

theorem sorted_file (hf : f ∈ log.files) : Sorted f.2.records := by
  have hall := log.ascending_records
  rw [← log.records] at hall
  exact .of_ascending ((pairwise_flatMap.1 hall).1 f hf) f.2.ranges

end

theorem Shows.filter_tail (h : log.Shows p) (hstart : p.tail.contiguousFrom = some start)
    (ho : start ≤ o) (hne : p.tail.records ≠ []) :
    (log.wal.map (·.record)).filter (o ≤ ·.lastOffset) = p.tail.records.filter (o ≤ ·.lastOffset) := by
  obtain ⟨front, hfront⟩ := h.tail
  have hall := log.ascending_records
  rw [← hfront] at hall ⊢
  have hnone : front.filter (o ≤ ·.lastOffset) = [] := by
    refine filter_eq_nil_iff.2 fun r hr hle => ?_
    have hhead := head?_eq_some_head hne
    have hlast := (pairwise_append.1 hall).2.2 r hr _ (mem_of_mem_head? hhead)
    have hfrom := h.tail_from start hstart _ hhead
    have hle := of_decide_eq_true hle
    omega
  rw [filter_append, hnone, nil_append]

theorem Shows.walReadFrom_isPrefix (h : log.Shows p) (hsearch : search.Correct) (hmax : 0 < maxRecords) :
    walReadFrom search o p maxRecords <+: (log.wal.map (·.record)).filter (o ≤ ·.lastOffset) ∧
      ((log.wal.map (·.record)).filter (o ≤ ·.lastOffset) ≠ [] →
        walReadFrom search o p maxRecords ≠ []) := by
  rw [walReadFrom]
  split
  case h_1 out htail =>
    obtain ⟨start, hstart, ho, rfl, hout⟩ := TailCache.readFrom_eq_some htail
    have hne : p.tail.records ≠ [] := by
      intro hnil
      rw [hnil] at hout
      exact hout rfl
    rw [h.filter_tail hstart ho hne]
    exact ⟨collect_isPrefix 0, fun _ => hout⟩
  case h_2 =>
    have hread : (PartitionIndex.readFrom search [] p.files o maxRecords).2 =
        ((log.wal.map (·.record)).foldl (keep o maxRecords) (0, [])).2 := by
      rw [h.files, readFrom_eq, ← log.records, foldl_flatMap, foldl_flatMap]
      exact congrArg Prod.snd
        (foldl_ext _ _ _ fun acc f hf => foldl_walked hsearch (log.sorted_file hf))
    obtain ⟨out, hout, heq, hne⟩ := foldl_keep_isPrefix o maxRecords (log.wal.map (·.record)) 0 []
    rw [hread, heq]
    exact ⟨hout, hne hmax⟩

theorem flatMap_recordBytes (ws : List (WalBatch deserialize)) :
    (ws.map (·.record)).flatMap (recordBytes deserialize o hi) =
      ((ws.map (·.wire)).filter (Overlaps · o hi)).flatMap (·.bytes) := by
  induction ws with
  | nil => rfl
  | cons w ws ih =>
    have hrecord : recordBytes deserialize o hi w.record =
        if Overlaps w.wire o hi then w.wire.bytes else [] := by
      rw [recordBytes, w.decodes]
      dsimp only
      rw [w.canonical_base, w.canonical_last, w.toKafkaBatch]
      rfl
    rw [map_cons, flatMap_cons, ih, hrecord, map_cons]
    by_cases hin : Overlaps w.wire o hi
    · rw [if_pos hin, filter_overlaps_cons_of_pos hin, flatMap_cons]
    · rw [if_neg hin, filter_overlaps_cons_of_neg hin, nil_append]

theorem filter_take_ne_nil {bs : List WireBatch} (hascending : Ascending bs)
    (hreach : ∀ b ∈ bs, o ≤ last b) (hpos : 0 < n) (hsome : bs.filter (Overlaps · o hi) ≠ []) :
    (bs.take n).filter (Overlaps · o hi) ≠ [] := by
  obtain ⟨b', hb'⟩ := exists_mem_of_ne_nil _ hsome
  obtain ⟨hmem, hin⟩ := mem_filter.1 hb'
  have hin : Overlaps b' o hi := of_decide_eq_true hin
  cases bs with
  | nil => cases hmem
  | cons b bs =>
  have hfirst : Overlaps b o hi := by
    refine ⟨hreach b (.head _), ?_⟩
    rcases mem_cons.1 hmem with rfl | hmem
    · exact hin.2
    have := (pairwise_cons.1 hascending).1 b' hmem
    have := b.base_le_last
    have := hin.2
    omega
  obtain ⟨k, rfl⟩ := Nat.exists_eq_add_one.2 hpos
  exact filter_overlaps_ne_nil (.head _) hfirst

/-- The WAL answers with its batches in the range, from the first on. -/
theorem Shows.fetchRawBytesFromWal_eq (h : log.Shows p) (hsearch : search.Correct) :
    ∃ ps, ps <+: log.wires.filter (Overlaps · o hi) ∧
      FetchHandler.fetchRawBytesFromWal deserialize search o hi maxBytes p =
        answer (ps.flatMap (·.bytes)) ∧
      (log.wires.filter (Overlaps · o hi) ≠ [] → ps ≠ []) := by
  let maxRecords := max 10000 (asUsize maxBytes / 10)
  have hmax : 0 < maxRecords := lt_of_lt_of_le (by decide) (le_max_left _ _)
  obtain ⟨hfirst, hne⟩ := h.walReadFrom_isPrefix (o := o) hsearch hmax
  have hfilter : (log.wal.map (·.record)).filter (o ≤ ·.lastOffset) =
      (log.wal.filter fun w => o ≤ last w.wire).map (·.record) := by
    rw [filter_map]
    refine congrArg _ (filter_congr fun w _ => ?_)
    rw [Function.comp_apply, w.record_last]
  rw [hfilter] at hfirst hne
  -- the records read are those of the first `n` batches that reach the offset
  obtain ⟨n, hn⟩ : ∃ n, n = (walReadFrom search o p maxRecords).length := ⟨_, rfl⟩
  have hread : walReadFrom search o p maxRecords =
      ((log.wal.filter fun w => o ≤ last w.wire).take n).map (·.record) := by
    rw [map_take, hn]
    exact prefix_iff_eq_take.1 hfirst
  have hwires : ((log.wal.filter fun w => o ≤ last w.wire).take n).map (·.wire) =
      (log.wires.filter (o ≤ last ·)).take n := by
    rw [map_take, wires, filter_map]
    rfl
  have hoverlap : (log.wires.filter (o ≤ last ·)).filter (Overlaps · o hi) =
      log.wires.filter (Overlaps · o hi) := by
    rw [filter_filter]
    refine filter_congr fun b _ => ?_
    rw [← Bool.decide_and]
    exact decide_eq_decide.2 ⟨fun h => h.1, fun h => ⟨h, h.1⟩⟩
  refine ⟨((log.wires.filter (o ≤ last ·)).take n).filter (Overlaps · o hi), ?_, ?_, fun hsome => ?_⟩
  · rw [← hoverlap]
    exact (List.take_prefix n _).filter _
  · rw [FetchHandler.fetchRawBytesFromWal, hread, flatMap_recordBytes, hwires]
  · rw [← hoverlap] at hsome
    refine filter_take_ne_nil (log.contiguousFrom_wires.ascending.filter _)
      (fun b hb => of_decide_eq_true (mem_filter.1 hb).2) ?_ hsome
    rw [hn]
    refine length_pos_iff.2 (hne fun hnil => ?_)
    rw [wires, filter_map] at hsome
    exact hsome (congrArg _ (congrArg _ (map_eq_nil_iff.1 hnil)))

theorem answer_flatMap {ps : List WireBatch} (hne : ps ≠ []) :
    answer (ps.flatMap (·.bytes)) = some (ps.flatMap (·.bytes)) :=
  if_neg (flatMap_bytes_ne_nil hne)

theorem Shows.tryFetchRawFromBuffer_eq (h : log.Shows p) :
    tryFetchRawFromBuffer o hi maxBytes p = none := by
  rw [tryFetchRawFromBuffer, h.buffer]
  rfl

theorem Shows.fetchRawBytes_eq_wal (h : log.Shows p) (hsearch : search.Correct)
    (hsome : log.wires.filter (Overlaps · o hi) ≠ []) :
    ∃ ps, ps <+: log.wires.filter (Overlaps · o hi) ∧ ps ≠ [] ∧
      FetchHandler.fetchRawBytes deserialize search o hi maxBytes p =
        .ok (some (ps.flatMap (·.bytes))) := by
  obtain ⟨ps, hps, heq, hne⟩ := h.fetchRawBytesFromWal_eq hsearch
  refine ⟨ps, hps, hne hsome, ?_⟩
  rw [FetchHandler.fetchRawBytes, h.tryFetchRawFromBuffer_eq, heq, answer_flatMap (hne hsome)]

theorem Shows.fetchRawBytes_eq_segments (h : log.Shows p) (hsearch : search.Correct)
    (hnone : log.wires.filter (Overlaps · o hi) = [])
    (hsegments : combineSegments o hi maxBytes (getSegmentsForRange o hi p) [] = .ok (some bytes)) :
    FetchHandler.fetchRawBytes deserialize search o hi maxBytes p = .ok (some bytes) := by
  obtain ⟨ps, hps, heq, -⟩ := h.fetchRawBytesFromWal_eq hsearch
  rw [hnone, prefix_nil] at hps
  rw [hps] at heq
  rw [FetchHandler.fetchRawBytes, h.tryFetchRawFromBuffer_eq, heq]
  rw [tryFetchRawFromSegments, hsegments]
  rfl

/-! ## The segments that a fetch goes through -/

theorem contiguousFrom_batches {s : StoredSegment} (h : ContiguousFrom start s.batches) :
    base s = start ∧ start ≤ last s ∧ endFrom start s.batches = last s + 1 := by
  have hlast := h.bounds (getLast_mem s.ne_nil)
  exact ⟨h.base_head s.ne_nil, le_trans hlast.1 hlast.2.1, endFrom_eq_last_getLast s.ne_nil⟩

theorem contiguousFrom_segments {segs : List StoredSegment}
    (h : ContiguousFrom start (segs.flatMap (·.batches))) :
    ContiguousFrom start segs ∧
      endFrom start segs = endFrom start (segs.flatMap (·.batches)) ∧
      ∀ s ∈ segs, ContiguousFrom (base s) s.batches := by
  induction segs generalizing start with
  | nil => exact ⟨trivial, rfl, forall_mem_nil _⟩
  | cons s segs ih =>
    obtain ⟨hfirst, hrest⟩ := contiguousFrom_append.1 h
    obtain ⟨hbase, hle, hend⟩ := contiguousFrom_batches hfirst
    rw [hend] at hrest
    obtain ⟨hsegs, hends, hall⟩ := ih hrest
    refine ⟨⟨hbase, hle, hsegs⟩, ?_, fun x hx => ?_⟩
    · rw [flatMap_cons, OffsetRange.endFrom_append, hend]
      exact hends
    · rcases mem_cons.1 hx with rfl | hx
      · rwa [hbase]
      · exact hall x hx

theorem segments_contiguous (log : TieredLog deserialize) :
    ContiguousFrom log.logStart log.segments ∧
      endFrom log.logStart log.segments = log.walStart ∧
      ∀ s ∈ log.segments, ContiguousFrom (base s) s.batches :=
  contiguousFrom_segments (contiguousFrom_append.1 log.contiguous).1

theorem filter_map_raw (segs : List StoredSegment) :
    (segs.map (·.raw)).filter (Overlaps · o hi) = (segs.filter (Overlaps · o hi)).map (·.raw) :=
  filter_map

/-- One segment that overlaps the range is the one a fetch goes through, whatever the cache has. -/
theorem Shows.getSegmentsForRange_eq (h : log.Shows p)
    (hs : log.segments.filter (Overlaps · o hi) = [s]) : getSegmentsForRange o hi p = [s.raw] := by
  have hraw : (log.segments.map (·.raw)).filter (Overlaps · o hi) = [s.raw] := by
    rw [filter_map_raw, hs]
    rfl
  have hlisting : p.segments.filter (Overlaps · o hi) = [s.raw] := by
    refine perm_singleton.1 ?_
    rw [← hraw]
    exact h.segments.filter _
  have hcached : ∀ cached ∈ p.segmentCache, cached.filter (Overlaps · o hi) = [] ∨
      cached.filter (Overlaps · o hi) = [s.raw] := by
    intro cached hcached
    obtain ⟨l, hl, hsub⟩ := (h.cache cached hcached).filter (Overlaps · o hi)
    rw [hraw] at hsub
    rcases sublist_singleton.1 hsub with rfl | rfl
    · exact .inl (nil_perm.1 hl)
    · exact .inr (singleton_perm.1 hl).symm
  rw [getSegmentsForRange, hlisting]
  cases hcache : p.segmentCache with
  | none => rfl
  | some cached =>
  show (if cached.filter (Overlaps · o hi) ≠ [] then cached.filter (Overlaps · o hi) else [s.raw]) = _
  rcases hcached cached hcache with hc | hc
  · rw [hc]
    rfl
  · rw [hc]
    rfl

/-- A segment that holds the whole range answers with its batches from the fetch offset on. -/
theorem exists_combineSegments_singleton {s : StoredSegment}
    (hbatches : ContiguousFrom (base s) s.batches) (hlow : base s ≤ o) (hlt : o < hi)
    (hhigh : o ≤ last s) :
    ∃ ps : List WireBatch, StartsAt o ps ∧
      combineSegments o hi maxBytes [s.raw] [] = .ok (some (ps.flatMap (·.bytes))) := by
  have hstarts : StartsAt o (s.batches.filter (Overlaps · o hi)) := by
    refine hbatches.startsAt_filter hlow ?_ hlt
    rw [(contiguousFrom_batches hbatches).2.2]
    omega
  obtain ⟨ps, hps, heq, hne⟩ := @combineSegments_cons o hi maxBytes [] s []
  have hne := hne rfl hstarts.ne_nil
  refine ⟨ps, hstarts.of_isPrefix hps hne, ?_⟩
  rw [heq, nil_append, combineSegments, answer_flatMap hne]

/-! ## Answers that begin at the fetch offset -/

/-- The fetch offset is in the WAL, or one segment holds everything from it up to the high
watermark. -/
def OneTier (log : TieredLog deserialize) (fetchOffset highWatermark : Int) : Prop :=
  log.walStart ≤ fetchOffset ∨
    ∃ s ∈ log.segments, base s ≤ fetchOffset ∧ highWatermark ≤ last s + 1

theorem Shows.exists_startsAt (h : log.Shows p) (hsearch : search.Correct) (hlt : o < hi)
    (hend : hi ≤ log.logEnd) (htier : log.OneTier o hi) :
    ∃ ps : List WireBatch, StartsAt o ps ∧
      FetchHandler.fetchRawBytes deserialize search o hi maxBytes p =
        .ok (some (ps.flatMap (·.bytes))) := by
  rcases htier with hwal | ⟨s, hs, hlow, hhigh⟩
  · have hstarts : StartsAt o (log.wires.filter (Overlaps · o hi)) :=
      log.contiguousFrom_wires.startsAt_filter hwal (lt_of_lt_of_le hlt hend) hlt
    obtain ⟨ps, hps, hne, heq⟩ := h.fetchRawBytes_eq_wal hsearch hstarts.ne_nil
    exact ⟨ps, hstarts.of_isPrefix hps hne, heq⟩
  obtain ⟨hsegments, hends, hbatches⟩ := log.segments_contiguous
  -- the WAL begins above the segment, so it has nothing in the range
  have habove : last s < log.walStart := hends ▸ (hsegments.bounds hs).2.2
  have hnone : log.wires.filter (Overlaps · o hi) = [] :=
    log.contiguousFrom_wires.filter_overlaps_eq_nil (by omega)
  obtain ⟨ps, hps, heq⟩ := exists_combineSegments_singleton (hbatches s hs) hlow hlt (by omega)
  refine ⟨ps, hps, h.fetchRawBytes_eq_segments hsearch hnone ?_⟩
  rwa [h.getSegmentsForRange_eq (hsegments.filter_eq_singleton hs hlow hlt hhigh)]

/-- The partition right after a start, with nothing in memory and the segments in a certain order.
-/
def restarted (log : TieredLog deserialize) (segments : List RawSegment) : Partition where
  buffer := []
  tail := .new 0
  committedThrough := 0
  files := log.files.map fun f => (f.1, f.2.bytes)
  segmentCache := none
  segments := segments
  tantivy := none

theorem shows_restarted (log : TieredLog deserialize) {segments : List RawSegment}
    (h : segments.Perm (log.segments.map (·.raw))) : log.Shows (log.restarted segments) where
  buffer := rfl
  tail := nil_suffix
  tail_from := by
    intro start hstart
    cases hstart
  files := rfl
  segments := h
  cache := by
    intro cached hcached
    cases hcached

/-- Below the WAL, a fetch that reaches into it is answered from the WAL's first batch on. -/
theorem exists_hole_at_wal (hsearch : search.Correct) (ho : o < log.walStart) (hhi : log.walStart < hi)
    (hend : hi ≤ log.logEnd) (h : log.Shows p) :
    ∃ ps : List WireBatch, ¬ StartsAt o ps ∧
      FetchHandler.fetchRawBytes deserialize search o hi maxBytes p =
        .ok (some (ps.flatMap (·.bytes))) := by
  have hcontiguous := log.contiguousFrom_wires
  obtain ⟨b, hb, hlow, hhigh⟩ := hcontiguous.exists_mem (le_refl _) (lt_of_lt_of_le hhi hend)
  have hin : Overlaps b o hi := ⟨by omega, by omega⟩
  obtain ⟨ps, hps, hne, heq⟩ := h.fetchRawBytes_eq_wal hsearch (filter_overlaps_ne_nil hb hin)
  have hwires : ps ⊆ log.wires := List.Subset.trans hps.subset (filter_subset_self _)
  have hhole := hcontiguous.not_startsAt_append ho hwires hne []
  rw [append_nil] at hhole
  exact ⟨ps, hhole, heq⟩

/-- A fetch that starts with a segment above its offset is answered from that segment on. -/
theorem exists_hole_at_segment (hsearch : search.Correct)
    (hnone : log.wires.filter (Overlaps · o hi) = []) {s : StoredSegment} (hs : s ∈ log.segments)
    (ho : o < base s) (hhi : base s < hi) :
    ∃ p, log.Shows p ∧ ∃ ps : List WireBatch, ¬ StartsAt o ps ∧
      FetchHandler.fetchRawBytes deserialize search o hi maxBytes p =
        .ok (some (ps.flatMap (·.bytes))) := by
  obtain ⟨before, behind, hsplit⟩ := append_of_mem hs
  have hperm : ((s :: (before ++ behind)).map (·.raw)).Perm (log.segments.map (·.raw)) := by
    rw [hsplit]
    exact perm_middle.symm.map _
  have hbatches := (log.segments_contiguous).2.2 s hs
  obtain ⟨-, hle, -⟩ := contiguousFrom_batches hbatches
  have hin : Overlaps s o hi := ⟨by omega, hhi⟩
  have hsegments : getSegmentsForRange o hi (log.restarted ((s :: (before ++ behind)).map (·.raw))) =
      s.raw :: ((before ++ behind).filter (Overlaps · o hi)).map (·.raw) := by
    show ((s :: (before ++ behind)).map (·.raw)).filter (Overlaps · o hi) = _
    rw [filter_map_raw, filter_overlaps_cons_of_pos hin]
    rfl
  have hsome : s.batches.filter (Overlaps · o hi) ≠ [] := by
    have hmem := head_mem s.ne_nil
    have hhead : base (s.batches.head s.ne_nil) = base s := rfl
    have hfirst : Overlaps (s.batches.head s.ne_nil) o hi := by
      have := (s.batches.head s.ne_nil).base_le_last
      exact ⟨by omega, by omega⟩
    exact filter_overlaps_ne_nil hmem hfirst
  obtain ⟨ps, hps, heq, hne⟩ := @combineSegments_cons o hi maxBytes [] s
    (((before ++ behind).filter (Overlaps · o hi)).map (·.raw))
  obtain ⟨ps', heq'⟩ := @exists_combineSegments o hi maxBytes ([] ++ ps.flatMap (·.bytes))
    ((before ++ behind).filter (Overlaps · o hi))
  have hne := hne rfl hsome
  have hsegment : ps ⊆ s.batches := List.Subset.trans hps.subset (filter_subset_self _)
  have hshows := log.shows_restarted hperm
  refine ⟨_, hshows, ps ++ ps', hbatches.not_startsAt_append ho hsegment hne ps',
    hshows.fetchRawBytes_eq_segments hsearch hnone ?_⟩
  rw [hsegments, heq, heq', nil_append, ← flatMap_append,
    answer_flatMap (append_ne_nil_of_left_ne_nil hne ps')]

/-- Where more than one tier or segment holds the range, a fetch may be answered from above its
offset. -/
theorem exists_hole (hsearch : search.Correct) (ho : log.logStart ≤ o) (hend : hi ≤ log.logEnd)
    (htier : ¬ log.OneTier o hi) :
    ∃ p, log.Shows p ∧ ∃ ps : List WireBatch, ¬ StartsAt o ps ∧
      FetchHandler.fetchRawBytes deserialize search o hi maxBytes p =
        .ok (some (ps.flatMap (·.bytes))) := by
  obtain ⟨hwal, hsegment⟩ := not_or.1 htier
  have hwal := not_le.1 hwal
  rcases Int.lt_or_le log.walStart hi with hhi | hhi
  · have hshows := log.shows_restarted (List.Perm.refl _)
    exact ⟨_, hshows, exists_hole_at_wal hsearch hwal hhi hend hshows⟩
  obtain ⟨hsegments, hends, -⟩ := log.segments_contiguous
  obtain ⟨s, hs, hlow, hhigh⟩ := hsegments.exists_mem ho (by omega)
  have hbeyond : last s + 1 < hi := by
    by_contra hle
    exact hsegment ⟨s, hs, hlow, not_lt.1 hle⟩
  -- the segment behind the one with the fetch offset
  obtain ⟨s', hs', hlow', hhigh'⟩ := hsegments.exists_mem (x := last s + 1) (by omega) (by omega)
  have habove : last s < base s' := by
    rcases hsegments.ascending.eq_or_apart hs hs' with rfl | hlt | hlt
    · omega
    · exact hlt
    · omega
  exact exists_hole_at_segment hsearch (log.contiguousFrom_wires.filter_overlaps_eq_nil hhi) hs'
    (by omega) (by omega)

/-- Whatever is cached and in whatever order, an answer begins with the batch that holds the fetch
offset and has no hole exactly if the WAL holds the offset or one segment everything up to the high
watermark. -/
theorem fetch_no_hole_iff (log : TieredLog deserialize) (hsearch : search.Correct)
    (ho : log.logStart ≤ o) (hlt : o < hi) (hend : hi ≤ log.logEnd) :
    (∀ p, log.Shows p → ∀ bytes,
      FetchHandler.fetchRawBytes deserialize search o hi maxBytes p = .ok (some bytes) →
        StartsAt o (rangesOf bytes)) ↔ log.OneTier o hi := by
  constructor
  · intro h
    by_contra htier
    obtain ⟨p, hp, ps, hps, heq⟩ := exists_hole hsearch ho hend htier
    exact hps (startsAt_rangesOf.1 (h p hp _ heq))
  · intro htier p hp bytes hbytes
    obtain ⟨ps, hps, heq⟩ := hp.exists_startsAt hsearch hlt hend htier
    rw [hbytes] at heq
    cases heq
    exact startsAt_rangesOf.2 hps

end

end TieredLog

namespace TieredFetchFixture

/-- A v2 batch without records that takes the offsets from `base` to `last`. -/
def wireBytes (base last : Int) : List UInt8 :=
  beInt 8 base ++ beInt 4 49 ++ List.replicate 4 0 ++ [2] ++ List.replicate 6 0 ++
    beInt 4 (last - base) ++ List.replicate 34 0

def old : WireBatch := ⟨wireBytes 0 4, by decide, by decide, by decide⟩

def new : WireBatch := ⟨wireBytes 5 9, by decide, by decide, by decide⟩

def canonical : CanonicalRecord where
  baseOffset := 5
  records := [⟨9, 0, none, none, [], 0⟩]
  wire := .v2 new.bytes

/-- The offsets 0 to 4 are in a segment, and 5 to 9 are in the WAL. -/
def log : TieredLog fun _ => some canonical where
  logStart := 0
  segments := [⟨"segment-0", [old], cons_ne_nil _ _⟩]
  files := [(1, {
    records := [IndexedReadFixture.record 5 9]
    torn := []
    wellFormed := by decide
    ranges := by decide
    noRecord := parseRecord_nil_ne })]
  wal := [⟨IndexedReadFixture.record 5 9, canonical, new, rfl, rfl, by decide, by decide, by decide,
    by decide⟩]
  records := rfl
  contiguous := by decide

end TieredFetchFixture

section
open TieredFetchFixture

/-- A fetch at an offset that is in the WAL gets every record from there on. -/
theorem fetch_no_hole_in_wal :
    log.OneTier 7 10 ∧ ∀ p, log.Shows p → ∀ bytes,
      FetchHandler.fetchRawBytes (fun _ => some canonical) .byLast 7 10 1000 p = .ok (some bytes) →
        OffsetRange.StartsAt 7 (rangesOf bytes) := by
  have htier : log.OneTier 7 10 := .inl (by decide)
  exact ⟨htier,
    (log.fetch_no_hole_iff Search.byLast_correct (by decide) (by decide) (by decide)).2 htier⟩

/-- A fetch from offset 0 is answered with the offsets 5 to 9: the WAL reaches the offset, and the
segment is not asked. -/
theorem fetch_below_wal_skips_segment :
    ¬ ∀ (deserialize : List UInt8 → Option CanonicalRecord) (search : Search), search.Correct →
      ∀ (log : TieredLog deserialize) (p : FetchHandler.Partition), log.Shows p →
      ∀ o hi maxBytes : Int, log.logStart ≤ o → o < hi → hi ≤ log.logEnd → ∀ bytes,
        FetchHandler.fetchRawBytes deserialize search o hi maxBytes p = .ok (some bytes) →
          OffsetRange.StartsAt o (rangesOf bytes) := by
  intro h
  have hshows := log.shows_restarted (List.Perm.refl _)
  have hbytes : FetchHandler.fetchRawBytes (fun _ => some canonical) .byLast 0 10 1000
      (log.restarted (log.segments.map (·.raw))) = .ok (some new.bytes) := by decide +kernel
  have hstarts := h _ _ Search.byLast_correct log _ hshows 0 10 1000 (by decide) (by decide) (by decide)
    _ hbytes
  exact absurd hstarts (by decide)

end

end ChronikStream
