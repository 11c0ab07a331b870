import ChronikStream.Raft.Messages
import ChronikStream.Wal.Truncate
import Mathlib.Data.List.Induction
import Mathlib.Data.List.Sort

/-!
# The WAL-backed Raft storage

`raft_storage_impl.rs`: the end of the log in memory, the hard state, the configuration and the
snapshot's metadata, and the WAL files, which hold the older entries and which a restart reads
(`recover`). An index below the first one underflows in `append_entries`; the model refuses it.
-/

namespace ChronikStream.Raft

open Bytes List

def raftTopic : String := "__raft_metadata"

def maxUnstableEntries : Nat := 50000

/-! ## The records of the WAL -/

def Message.offset : Message → Int
  | .entry e => asI64 e.index.toNat
  | .hardState _ | .confState _ => 0

/-- The record of a message; `crc` stands for the CRC-32 that `new_v2` computes. -/
def walRecord (crc : List UInt8 → UInt32) (m : Message) : WalRecord :=
  .newV2 (crc m.encode).toNat raftTopic 0 m.encode m.offset m.offset 1

/-- The messages that fit a record: its length has 32 bits. -/
def Message.FitsRecord (m : Message) : Prop := 45 + m.encode.length < 2 ^ 32
deriving Decidable

def walFile (crc : List UInt8 → UInt32) (messages : List Message) : List UInt8 :=
  encodeSegment (messages.map (walRecord crc))

/-- The records of a WAL file, up to the first that cannot be parsed. The fuel bounds their number.
-/
def recordsOfFile : Nat → List UInt8 → List WalRecord
  | 0, _ => []
  | fuel + 1, contents =>
    if contents = [] then []
    else
      match WalRecord.fromBytes contents with
      | none => []
      | some r => r :: recordsOfFile fuel (contents.drop (r.length + 12))

/-- The canonical data of all records, file after file. -/
def messagesOfFiles (files : List (List UInt8)) : List (List UInt8) :=
  files.flatMap fun contents => (recordsOfFile contents.length contents).map (·.canonicalData)

def walFileName (id : Nat) : String := "wal_0_" ++ toString id ++ ".log"

def NameLe {α : Type*} (a b : α × Nat) : Prop := walFileName a.2 ≤ walFileName b.2
deriving Decidable

/-- `scan_wal_files`: the files in the order of their names, which is not that of their ids. -/
def scanWalFiles {α : Type*} (files : List α) : List α :=
  (files.zipIdx.insertionSort NameLe).map Prod.fst

/-! ## Recovery -/

/-- What the records of the files amount to. -/
structure Recovered where
  entries : List Entry
  hardState : Option HardState
  confState : Option ConfState

namespace Recovered

/-- One record: the message is the first kind that decodes. -/
def add (acc : Recovered) (data : List UInt8) : Recovered :=
  if data = [] then acc
  else
    match Entry.decode data with
    | some e => if 0 < e.index then { acc with entries := acc.entries ++ [e] } else acc
    | none =>
      match HardState.decode data with
      | some hs =>
        if 0 < hs.term ∨ 0 < hs.vote ∨ 0 < hs.commit then { acc with hardState := some hs } else acc
      | none =>
        match ConfState.decode data with
        | some cs => if cs.voters ≠ [] then { acc with confState := some cs } else acc
        | none => acc

end Recovered

def parseWalRecords (files : List (List UInt8)) : Recovered :=
  (messagesOfFiles files).foldl Recovered.add ⟨[], none, none⟩

def sortByIndex (entries : List Entry) : List Entry :=
  entries.insertionSort fun a b => a.index ≤ b.index

/-- One entry of the loop that keeps the highest term of each index. -/
def dedupStep (acc : List Entry × UInt64) (e : Entry) : List Entry × UInt64 :=
  if e.index ≠ acc.2 then (e :: acc.1, e.index)
  else
    match acc.1 with
    | top :: rest => if top.term < e.term then (e :: rest, acc.2) else acc
    | [] => acc

/-- The entries of a list sorted by index, one for each index. -/
def dedupByIndex (entries : List Entry) : List Entry :=
  (entries.foldl dedupStep ([], 0)).1.reverse

def processRecoveredEntries (entries : List Entry) (snapshotIndex : Nat) : List Entry :=
  (dedupByIndex ((sortByIndex entries).filter fun e =>
    snapshotIndex = 0 ∨ snapshotIndex < e.index.toNat)).take maxUnstableEntries

/-! ## The storage -/

structure SnapshotMetadata where
  index : Nat
  term : UInt64
  deriving DecidableEq

structure RaftWalStorage where
  entries : List Entry
  hardState : HardState
  confState : ConfState
  snapshot : SnapshotMetadata
  firstIndex : Nat

inductive StorageError where
  | unavailable
  | panic
  deriving DecidableEq

namespace RaftWalStorage

variable (s : RaftWalStorage)

def new : RaftWalStorage := ⟨[], .default, .default, ⟨0, 0⟩, 1⟩

/-- The recovered entries become the log in memory. -/
def restoreLog (snapshotIndex : Nat) : List Entry → RaftWalStorage
  | first :: rest => { s with entries := first :: rest, firstIndex := first.index.toNat }
  | [] => if 0 < snapshotIndex then { s with firstIndex := snapshotIndex + 1 } else s

/-- `restore_raft_state`: what was not recovered stays. -/
def restoreRaftState (hardState : Option HardState) (confState : Option ConfState) :
    RaftWalStorage :=
  { s with hardState := hardState.getD s.hardState, confState := confState.getD s.confState }

/-- `recover`, with the latest snapshot on disk if there is one. -/
def recover (snapshot : Option SnapshotMetadata) (files : List (List UInt8)) : RaftWalStorage :=
  let s := { s with snapshot := snapshot.getD s.snapshot }
  let snapshotIndex := (snapshot.map (·.index)).getD 0
  if files = [] then s
  else
    let recovered := parseWalRecords (scanWalFiles files)
    (s.restoreLog snapshotIndex
      (processRecoveredEntries recovered.entries snapshotIndex)).restoreRaftState
      recovered.hardState recovered.confState

def hasRecoveredState : Bool :=
  0 < s.hardState.term || 0 < s.hardState.vote || 0 < s.hardState.commit

def setRaftState (hardState : HardState) (confState : ConfState) : RaftWalStorage :=
  { s with hardState := hardState, confState := confState }

def clearEntries : RaftWalStorage := { s with entries := [], firstIndex := 1 }

/-- `initialize_wal_storage`: what was recovered is dropped unless it has a hard state and voters.
-/
def initializeWalStorage (snapshot : Option SnapshotMetadata) (files : List (List UInt8))
    (allNodes : List UInt64) : RaftWalStorage :=
  let s := new.recover snapshot files
  if ¬ s.hasRecoveredState ∨ s.confState.voters = [] then
    (s.setRaftState .default { ConfState.default with voters := allNodes }).clearEntries
  else s

/-! ## Writing -/

/-- One entry is put at its place, behind default entries if there is a gap. -/
def putEntry (firstIndex : Nat) (log : List Entry) (e : Entry) : Option (List Entry) :=
  if e.index.toNat < firstIndex then none
  else
    let vecIdx := e.index.toNat - firstIndex
    let log :=
      if log.length ≤ vecIdx then log ++ List.replicate (vecIdx + 1 - log.length) .default else log
    some (log.set vecIdx e)

/-- The oldest entries are dropped from memory where there are too many, but only if the log begins
right behind the snapshot. -/
def trim : RaftWalStorage :=
  if maxUnstableEntries < s.entries.length ∧ s.firstIndex = s.snapshot.index + 1 then
    let trimCount := s.entries.length - maxUnstableEntries
    { s with entries := s.entries.drop trimCount, firstIndex := s.firstIndex + trimCount }
  else s

def appendEntries (entries : List Entry) : Option RaftWalStorage :=
  if entries = [] then some s
  else (entries.foldlM (putEntry s.firstIndex) s.entries).map fun log => trim { s with entries := log }

def saveSnapshot (snapshot : SnapshotMetadata) : RaftWalStorage :=
  { s with snapshot := snapshot }

def truncateLogToSnapshot (snapshotIndex : Nat) : RaftWalStorage :=
  let newFirst := snapshotIndex + 1
  if newFirst ≤ s.firstIndex then s
  else { s with entries := s.entries.drop (newFirst - s.firstIndex), firstIndex := newFirst }

/-! ## Reading -/

/-- The entries among the records with an index in the range, one for each index. -/
def readEntriesFromWal (files : List (List UInt8)) (low high : Nat) :
    Except StorageError (List Entry) :=
  if high ≤ low then .ok []
  else if files = [] then .error .unavailable
  else
    let found := (messagesOfFiles (scanWalFiles files)).filterMap fun data =>
      (Entry.decode data).filter fun e => 0 < e.index ∧ low ≤ e.index.toNat ∧ e.index.toNat < high
    .ok (dedupByIndex (sortByIndex found))

/-- The entries whose sizes add up to at most `maxSize`. -/
def limitSize (maxSize : Nat) : Nat → List Entry → List Entry
  | _, [] => []
  | total, e :: es =>
    let total := total + (24 + e.data.length)
    if maxSize < total then [] else e :: limitSize maxSize total es

def getEntries (files : List (List UInt8)) (low high : Nat)
    (maxSize : Option Nat) : Except StorageError (List Entry) :=
  if high ≤ low then .ok []
  else if s.entries = [] then .ok []
  else if low < s.firstIndex then readEntriesFromWal files low high
  else if s.entries.length + s.firstIndex < high then .error .panic
  else
    let entries := (s.entries.drop (low - s.firstIndex)).take (high - low)
    .ok (maxSize.elim entries fun m => limitSize m 0 entries)

def term (files : List (List UInt8)) (idx : Nat) : Except StorageError UInt64 :=
  if idx = s.snapshot.index then .ok s.snapshot.term
  else if idx < s.firstIndex then
    match readEntriesFromWal files idx (idx + 1) with
    | .ok (e :: _) => .ok e.term
    | .ok [] | .error _ => .ok s.snapshot.term
  else
    match s.entries[idx - s.firstIndex]? with
    | some e => .ok e.term
    | none => .error .unavailable

/-- `Storage::last_index`; the first index is at least 1. -/
def lastIndex : Nat := s.firstIndex + s.entries.length - 1

end RaftWalStorage

/-! ## What the files hold -/

section

theorem fits_offset (m : Message) : Fits 8 m.offset := by
  cases m with
  | entry e =>
    rw [Message.offset]
    exact fits_wrap 8 _
  | hardState _ | confState _ => exact (by decide : Fits 8 0)

theorem wellFormed_walRecord (h : m.FitsRecord) : (walRecord crc m).WellFormed := by
  have htopic : raftTopic.utf8ByteSize = 15 := by decide
  have hlen : (walRecord crc m).length = 45 + m.encode.length := by
    show (2 + raftTopic.utf8ByteSize + 4 + 4 + m.encode.length + 8 + 8 + 4) % 2 ^ 32 = _
    rw [Nat.mod_eq_of_lt]
    · omega
    · have : 45 + m.encode.length < 2 ^ 32 := h
      omega
  constructor
  case length_eq =>
    rw [hlen]
    show _ = 30 + raftTopic.utf8ByteSize + m.encode.length
    rw [htopic]
  case length_fits => rw [hlen]; exact h
  case crc_fits => exact UInt32.toNat_lt _
  case topic_fits => exact (by decide : raftTopic.utf8ByteSize < 2 ^ 16)
  case partition_fits => exact (by decide : Fits 4 0)
  case base_fits => exact fits_offset m
  case last_fits => exact fits_offset m
  case count_fits => exact (by decide : Fits 4 1)

theorem recordsOfFile_encodeSegment (h : ∀ r ∈ records, r.WellFormed)
    (hfuel : records.length ≤ fuel) : recordsOfFile fuel (encodeSegment records) = records := by
  induction records generalizing fuel with
  | nil => cases fuel <;> rfl
  | cons r records ih =>
    cases fuel with
    | zero => exact absurd hfuel (Nat.not_succ_le_zero _)
    | succ fuel =>
    have hr := h r (.head _)
    have hsplit : encodeSegment (r :: records) = r.toBytes ++ encodeSegment records := flatMap_cons
    have hlen : r.length + 12 = r.toBytes.length := by
      rw [r.length_toBytes, hr.length_eq]
      omega
    have hne : r.toBytes ++ encodeSegment records ≠ [] := by
      refine append_ne_nil_of_left_ne_nil (length_pos_iff.1 ?_) _
      omega
    rw [hsplit, recordsOfFile, if_neg hne, hr.fromBytes_toBytes]
    dsimp only
    rw [hlen, drop_left, ih (fun x hx => h x (.tail _ hx)) (Nat.le_of_succ_le_succ hfuel)]

theorem perm_scanWalFiles (files : List α) : (scanWalFiles files).Perm files := by
  have h := (perm_insertionSort NameLe files.zipIdx).map Prod.fst
  rwa [zipIdx_map_fst] at h

theorem scanWalFiles_map (f : α → β) (files : List α) :
    scanWalFiles (files.map f) = (scanWalFiles files).map f := by
  have hname : ∀ a b : α × Nat, NameLe a b ↔ NameLe (Prod.map f id a) (Prod.map f id b) := by
    intro a b
    rw [NameLe, NameLe, Prod.map_snd, Prod.map_snd, id, id]
  have hsort := map_insertionSort NameLe NameLe (Prod.map f id) files.zipIdx
    fun a _ b _ => hname a b
  rw [scanWalFiles, zipIdx_map, ← hsort, map_map, scanWalFiles, map_map]
  rfl

theorem messagesOfFiles_walFile {files : List (List Message)}
    (h : ∀ ms ∈ files, ∀ m ∈ ms, m.FitsRecord) :
    messagesOfFiles (files.map (walFile crc)) = files.flatten.map Message.encode := by
  induction files with
  | nil => rfl
  | cons ms files ih =>
    have hms : ∀ r ∈ ms.map (walRecord crc), r.WellFormed := by
      intro r hr
      obtain ⟨m, hm, rfl⟩ := mem_map.1 hr
      exact wellFormed_walRecord (h ms (.head _) m hm)
    have hfile : (recordsOfFile (walFile crc ms).length (walFile crc ms)).map (·.canonicalData) =
        ms.map Message.encode := by
      rw [walFile, recordsOfFile_encodeSegment hms (length_le_length_encodeSegment _), map_map]
      rfl
    have hrest := ih fun ms' hms' => h ms' (.tail _ hms')
    rw [messagesOfFiles] at hrest ⊢
    rw [map_cons, flatMap_cons, hrest, hfile, flatten_cons, map_append]

end

/-! ## One entry for each index -/

section
variable {seen found best : List Entry} {acc : List Entry × UInt64} {e : Entry}

/-- What the loop holds after the entries `seen`: for each index one with the highest term. -/
structure DedupInv (seen : List Entry) (acc : List Entry × UInt64) : Prop where
  descending : acc.1.Pairwise fun a b => b.index < a.index
  mem : ∀ x ∈ acc.1, x ∈ seen
  best : ∀ e ∈ seen, ∃ x ∈ acc.1, x.index = e.index ∧ e.term ≤ x.term
  last : acc.2 = (acc.1.head?.map (·.index)).getD 0

theorem DedupInv.push (h : DedupInv seen acc) (hlt : ∀ x ∈ acc.1, x.index < e.index) :
    DedupInv (seen ++ [e]) (e :: acc.1, e.index) where
  descending := pairwise_cons.2 ⟨hlt, h.descending⟩
  mem := by
    intro x hx
    rcases mem_cons.1 hx with rfl | hx
    · exact mem_concat_self
    · exact mem_append_left _ (h.mem x hx)
  best := by
    intro y hy
    rcases mem_concat.1 hy with hy | rfl
    · obtain ⟨x, hx, hxy⟩ := h.best y hy
      exact ⟨x, .tail _ hx, hxy⟩
    · exact ⟨_, .head _, rfl, UInt64.le_refl _⟩
  last := rfl

theorem DedupInv.keep {top : Entry} {rest : List Entry} {last : UInt64}
    (h : DedupInv seen (top :: rest, last)) (hidx : e.index = top.index) (hterm : e.term ≤ top.term) :
    DedupInv (seen ++ [e]) (top :: rest, last) where
  descending := h.descending
  mem := fun x hx => mem_append_left _ (h.mem x hx)
  best := forall_mem_concat.2 ⟨h.best, ⟨top, .head _, hidx.symm, hterm⟩⟩
  last := h.last

theorem DedupInv.replace {top : Entry} {rest : List Entry} {last : UInt64}
    (h : DedupInv seen (top :: rest, last)) (hidx : e.index = top.index) (hterm : top.term < e.term) :
    DedupInv (seen ++ [e]) (e :: rest, last) where
  descending := by
    obtain ⟨htop, hrest⟩ := pairwise_cons.1 h.descending
    refine pairwise_cons.2 ⟨fun x hx => ?_, hrest⟩
    rw [hidx]
    exact htop x hx
  mem := by
    intro x hx
    rcases mem_cons.1 hx with rfl | hx
    · exact mem_concat_self
    · exact mem_append_left _ (h.mem x (.tail _ hx))
  best := by
    intro y hy
    rcases mem_concat.1 hy with hy | rfl
    · obtain ⟨x, hx, hxy, hle⟩ := h.best y hy
      rcases mem_cons.1 hx with rfl | hx
      · exact ⟨e, .head _, hidx.trans hxy, UInt64.le_trans hle (UInt64.le_of_lt hterm)⟩
      · exact ⟨x, .tail _ hx, hxy, hle⟩
    · exact ⟨_, .head _, rfl, UInt64.le_refl _⟩
  last := by
    rw [h.last]
    exact hidx.symm

theorem DedupInv.step (h : DedupInv seen acc) (hpos : 0 < e.index)
    (hle : ∀ x ∈ seen, x.index ≤ e.index) : DedupInv (seen ++ [e]) (dedupStep acc e) := by
  obtain ⟨kept, last⟩ := acc
  cases kept with
  | nil =>
    have hlast : last = 0 := h.last
    have hne : e.index ≠ last := by
      rw [hlast]
      exact (UInt64.ne_of_lt hpos).symm
    rw [dedupStep, if_pos hne]
    exact h.push fun x hx => absurd hx not_mem_nil
  | cons top rest =>
    have hlast : last = top.index := h.last
    have htop : top.index ≤ e.index := hle top (h.mem top (.head _))
    rw [dedupStep]
    split
    case isTrue hne =>
      have htop : top.index < e.index := by
        refine UInt64.lt_of_le_of_ne htop fun heq => hne ?_
        rw [heq.symm]
        exact hlast.symm
      refine h.push fun x hx => ?_
      rcases mem_cons.1 hx with rfl | hx
      · exact htop
      · exact UInt64.lt_trans ((pairwise_cons.1 h.descending).1 x hx) htop
    case isFalse heq =>
      have hidx : e.index = top.index := (not_ne_iff.1 heq).trans hlast
      show DedupInv _ (if top.term < e.term then (e :: rest, last) else (top :: rest, last))
      split
      case isTrue hterm => exact h.replace hidx hterm
      case isFalse hterm => exact h.keep hidx (UInt64.not_lt.1 hterm)

theorem dedupInv_foldl (hpos : ∀ e ∈ found, 0 < e.index)
    (hsorted : found.Pairwise fun a b => a.index ≤ b.index) :
    DedupInv found (found.foldl dedupStep ([], 0)) := by
  induction found using List.reverseRecOn with
  | nil => constructor <;> simp
  | append_singleton found e ih =>
    obtain ⟨hfound, -, hle⟩ := pairwise_append.1 hsorted
    rw [foldl_append]
    exact (ih (fun x hx => hpos x (mem_append_left _ hx)) hfound).step
      (hpos e mem_concat_self) fun x hx => hle x hx e (.head _)

/-- An entry that the others with its index yield to: they are the same, or have a lower term. -/
def Entry.BestOf (found : List Entry) (e : Entry) : Prop :=
  e ∈ found ∧ ∀ y ∈ found, y.index = e.index → y = e ∨ y.term < e.term

/-- Where every index has such an entry, these are the ones kept, in the order of their indexes. -/
theorem dedupByIndex_sortByIndex (hpos : ∀ e ∈ found, 0 < e.index)
    (hascending : best.Pairwise fun a b => a.index < b.index) (hbest : ∀ e ∈ best, e.BestOf found)
    (hcover : ∀ y ∈ found, ∃ x ∈ best, x.index = y.index) :
    dedupByIndex (sortByIndex found) = best := by
  have hperm : (sortByIndex found).Perm found := perm_insertionSort _ _
  have hinv : DedupInv (sortByIndex found) _ :=
    dedupInv_foldl (fun e he => hpos e (hperm.mem_iff.1 he)) (pairwise_insertionSort _ _)
  have hkept : (dedupByIndex (sortByIndex found)).Pairwise fun a b => a.index < b.index :=
    pairwise_reverse.2 hinv.descending
  -- of an index's entries the best is kept, as none has its term or a higher one
  have hmem : ∀ e ∈ best, e ∈ dedupByIndex (sortByIndex found) := by
    intro e he
    obtain ⟨hefound, hyield⟩ := hbest e he
    obtain ⟨x, hx, hidx, hterm⟩ := hinv.best e (hperm.mem_iff.2 hefound)
    rcases hyield x (hperm.mem_iff.1 (hinv.mem x hx)) hidx with rfl | hlt
    · exact mem_reverse.2 hx
    · exact absurd hlt (UInt64.not_lt.2 hterm)
  have hinj := inj_on_of_nodup_map (pairwise_map.2 (hkept.imp UInt64.ne_of_lt))
  have hsame : ∀ x, x ∈ dedupByIndex (sortByIndex found) ↔ x ∈ best := by
    refine fun x => ⟨fun hx => ?_, hmem x⟩
    obtain ⟨y, hy, hidx⟩ := hcover x (hperm.mem_iff.1 (hinv.mem x (mem_reverse.1 hx)))
    rwa [← hinj (hmem y hy) hx hidx]
  refine List.Perm.eq_of_pairwise (fun a b _ _ hab hba => ?_) hkept hascending
    ((perm_ext_iff_of_nodup (hkept.imp ?_) (hascending.imp ?_)).2 hsame)
  · exact absurd hab (UInt64.lt_asymm hba)
  all_goals
    intro a b hab heq
    exact UInt64.lt_irrefl _ (heq ▸ hab)

/-! ## Entries read from the files -/

def entryFiles (crc : List UInt8 → UInt32) (wal : List (List Entry)) : List (List UInt8) :=
  wal.map fun es => walFile crc (es.map .entry)

/-- The files are read in another order than they were written, but all entries are found. -/
theorem exists_messagesOfFiles_scan (crc : List UInt8 → UInt32) {wal : List (List Entry)}
    (hfits : ∀ e ∈ wal.flatten, (Message.entry e).FitsRecord) :
    ∃ es : List Entry, es.Perm wal.flatten ∧
      messagesOfFiles (scanWalFiles (entryFiles crc wal)) = es.map Entry.encode := by
  have hperm : (scanWalFiles wal).Perm wal := perm_scanWalFiles wal
  have hmessages : ∀ ms ∈ (scanWalFiles wal).map (List.map Message.entry), ∀ m ∈ ms, m.FitsRecord := by
    intro ms hms m hm
    obtain ⟨es, hes, rfl⟩ := mem_map.1 hms
    obtain ⟨e, he, rfl⟩ := mem_map.1 hm
    exact hfits e (mem_flatten.2 ⟨es, hperm.mem_iff.1 hes, he⟩)
  have hread : messagesOfFiles (List.map (walFile crc) _) = _ := messagesOfFiles_walFile hmessages
  refine ⟨(scanWalFiles wal).flatten, hperm.flatten, ?_⟩
  rw [map_map, ← map_flatten, map_map] at hread
  rw [entryFiles, scanWalFiles_map]
  exact hread

/-- A range is read whose entries are each the best of the files. -/
theorem readEntriesFromWal_entryFiles (hlow : 0 < low) (hrange : low < high) (hwal : wal ≠ [])
    (hfits : ∀ e ∈ wal.flatten, (Message.entry e).FitsRecord)
    (hascending : best.Pairwise fun a b => a.index < b.index)
    (hbest : ∀ e ∈ best, e.BestOf wal.flatten ∧ low ≤ e.index.toNat ∧ e.index.toNat < high)
    (hcover : ∀ i, low ≤ i → i < high → ∃ e ∈ best, e.index.toNat = i) :
    RaftWalStorage.readEntriesFromWal (entryFiles crc wal) low high = .ok best := by
  obtain ⟨es, hperm, hes⟩ := exists_messagesOfFiles_scan crc hfits
  have hfiles : entryFiles crc wal ≠ [] := fun h => hwal (map_eq_nil_iff.1 h)
  have hdecode : ∀ e ∈ es, Entry.decode e.encode = some e := by
    intro e he
    have hlen : 45 + e.encode.length < 2 ^ 32 := hfits e (hperm.mem_iff.1 he)
    exact e.decode_encode (by omega)
  let inRange : Entry → Bool := fun e => 0 < e.index ∧ low ≤ e.index.toNat ∧ e.index.toNat < high
  have hfound : (es.map Entry.encode).filterMap (fun data => (Entry.decode data).filter inRange) =
      es.filter inRange := by
    rw [filterMap_map, ← filterMap_eq_filter]
    refine filterMap_congr fun e he => ?_
    rw [Function.comp_apply, hdecode e he]
    rfl
  have hmem : ∀ e, e ∈ es.filter inRange ↔
      e ∈ wal.flatten ∧ low ≤ e.index.toNat ∧ e.index.toNat < high := by
    intro e
    rw [mem_filter, hperm.mem_iff, decide_eq_true_iff]
    refine and_congr_right fun _ => ⟨fun h => h.2, fun h => ⟨UInt64.lt_iff_toNat_lt.2 ?_, h⟩⟩
    show 0 < e.index.toNat
    omega
  rw [RaftWalStorage.readEntriesFromWal, if_neg (by omega), if_neg hfiles, hes]
  show Except.ok (dedupByIndex (sortByIndex ((es.map Entry.encode).filterMap _))) = _
  rw [hfound]
  congr 1
  refine dedupByIndex_sortByIndex (fun e he => ?_) hascending (fun e he => ?_) fun y hy => ?_
  · exact (decide_eq_true_iff.1 (mem_filter.1 he).2).1
  · obtain ⟨⟨hin, hyield⟩, hrange⟩ := hbest e he
    exact ⟨(hmem e).2 ⟨hin, hrange⟩, fun y hy => hyield y ((hmem y).1 hy).1⟩
  · obtain ⟨-, hge, hlt⟩ := (hmem y).1 hy
    obtain ⟨e, he, hidx⟩ := hcover _ hge hlt
    exact ⟨e, he, UInt64.toNat_inj.1 hidx⟩

end

end ChronikStream.Raft
