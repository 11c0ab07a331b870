import ChronikStream.Wal.SegmentScan

/-!
# The sparse index of a partition's segments

`SegmentMarks` is what `segment_index.rs` remembers of a segment file: the bytes scanned, the first
and last offset, and a mark for one record in every 64 KiB. `refresh` resumes the scan unless the
file is shorter. A read starts each segment at the mark a binary search finds (`seekTo`).
-/

namespace ChronikStream

open Bytes

/-! ## Binary search -/

/-- A search for a key in a list: the index of a match, or the index where the key would go. -/
abbrev Search := List Int → Int → Except Nat Nat

/-- What the standard library documents for `binary_search_by`. It says nothing about keys that are
not ascending. -/
structure Search.Correct (search : Search) : Prop where
  found : ∀ {keys : List Int} {key : Int} {i : Nat}, keys.Pairwise (· ≤ ·) →
    search keys key = .ok i → keys[i]? = some key
  missing : ∀ {keys : List Int} {key : Int} {i : Nat}, keys.Pairwise (· ≤ ·) →
    search keys key = .error i →
      i ≤ keys.length ∧ (∀ k ∈ keys.take i, k < key) ∧ ∀ k ∈ keys.drop i, key < k

/-! ## The marks of one segment -/

def markInterval : Nat := 64 * 1024

structure SegmentMarks where
  indexedLen : Nat
  firstOffset : Option Int
  lastOffset : Option Int
  marks : List (Int × Nat)
  deriving DecidableEq

namespace SegmentMarks

/-- Nothing is known: a new entry, and one that is reset. -/
def new : SegmentMarks := ⟨0, none, none, []⟩

def WantMark (marks : List (Int × Nat)) (position : Nat) : Prop :=
  ∀ x ∈ marks.getLast?, markInterval ≤ position - x.2
deriving Decidable

def add (m : SegmentMarks) (l : RecordLayout) : SegmentMarks where
  indexedLen := m.indexedLen + l.totalLen
  firstOffset := m.firstOffset.or (some l.baseOffset)
  lastOffset := some l.lastOffset
  marks := if WantMark m.marks m.indexedLen then m.marks ++ [(l.baseOffset, m.indexedLen)] else m.marks

/-- The scan of the bytes behind `indexedLen`. The fuel bounds the number of records. -/
def extend : Nat → SegmentMarks → List UInt8 → SegmentMarks
  | 0, m, _ => m
  | fuel + 1, m, tail =>
    match parseRecord tail with
    | .record l => extend fuel (m.add l) (tail.drop l.totalLen)
    | .incomplete | .invalid => m

/-- `SegmentMarks::refresh` on the file as it is now. -/
def refresh (m : SegmentMarks) (file : List UInt8) : SegmentMarks :=
  let m := if file.length < m.indexedLen then new else m
  if file.length = m.indexedLen then m else extend file.length m (file.drop m.indexedLen)

/-- The index of the mark that a search result stands for: the match, or the one before the place of
the key, or the first. -/
def markIndex : Except Nat Nat → Nat
  | .ok i => i
  | .error i => i - 1

/-- `seek_to`: the byte to start reading from, `none` where the segment cannot hold the offset. -/
def seekTo (search : Search) (m : SegmentMarks) (offset : Int) : Option Nat :=
  m.lastOffset.bind fun last =>
    if last < offset then none
    else m.marks[markIndex (search (m.marks.map Prod.fst) offset)]?.map Prod.snd

theorem exists_mark_of_seekTo {search : Search} {m : SegmentMarks}
    (h : m.seekTo search offset = some p) :
    ∃ x, m.marks[markIndex (search (m.marks.map Prod.fst) offset)]? = some x ∧ x.2 = p := by
  obtain ⟨last, -, h⟩ := Option.bind_eq_some_iff.1 h
  split at h
  · cases h
  · exact Option.map_eq_some_iff.1 h

end SegmentMarks

/-! ## Reading -/

def RecordLayout.messages (l : RecordLayout) : Nat := (max l.recordCount 1).toNat

/-- `read_segment_from`: the records that reach `offset`, added to what was collected, up to
`maxRecords` messages. -/
def readSegmentFrom (offset : Int) (maxRecords : Nat) :
    Nat → List UInt8 → Nat × List WalRecord → Nat × List WalRecord
  | 0, _, acc => acc
  | fuel + 1, data, acc =>
    match parseRecord data with
    | .record l =>
      let acc' :=
        if offset ≤ l.lastOffset ∧ acc.1 < maxRecords then
          match l.toRecord data with
          | some r => (acc.1 + l.messages, acc.2 ++ [r])
          | none => acc
        else acc
      if maxRecords ≤ acc'.1 then acc'
      else readSegmentFrom offset maxRecords fuel (data.drop l.totalLen) acc'
    | .incomplete | .invalid => acc

/-- One segment of a read that starts at byte `start`, after the segments before it. -/
def readFile (offset : Int) (maxRecords : Nat) (acc : Nat × List WalRecord) (file : List UInt8)
    (start : Nat) : Nat × List WalRecord :=
  if maxRecords ≤ acc.1 then acc
  else readSegmentFrom offset maxRecords file.length (file.drop start) acc

/-- A partition's index: the marks of its segments by segment id. -/
abbrev PartitionIndex := List (Nat × SegmentMarks)

namespace PartitionIndex

variable (search : Search) (index : PartitionIndex) (files : List (Nat × List UInt8))

/-- `PartitionIndex::refresh`: new files get an entry, entries without a file go, and every entry is
refreshed. -/
def refresh (index : PartitionIndex) (files : List (Nat × List UInt8)) : PartitionIndex :=
  files.map fun f => (f.1, ((index.lookup f.1).getD .new).refresh f.2)

/-- The segments a read goes through, each with its file and the byte to start at. -/
def plan (offset : Int) : List (List UInt8 × Nat) :=
  (index.zip files).filterMap fun x => (x.1.2.seekTo search offset).map (x.2.2, ·)

/-- `PartitionIndex::read_from`: the refreshed index, and the records. -/
def readFrom (offset : Int) (maxRecords : Nat) : PartitionIndex × List WalRecord :=
  let index := index.refresh files
  (index, ((index.plan search files offset).foldl
    (fun acc x => readFile offset maxRecords acc x.1 x.2) (0, [])).2)

end PartitionIndex

/-- The read without an index: every segment from byte 0. -/
def scanFiles (files : List (Nat × List UInt8)) (offset : Int) (maxRecords : Nat) : List WalRecord :=
  (files.foldl (fun acc f => readFile offset maxRecords acc f.2 0) (0, [])).2

end ChronikStream
