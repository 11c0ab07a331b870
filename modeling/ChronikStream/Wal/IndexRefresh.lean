import ChronikStream.Wal.IndexedRead
import ChronikStream.Wal.TornWrite

/-!
# The cached index over the life of a partition

`manager.rs` refreshes the `PartitionIndex` at every read; everything else changes the files behind
its back. A refresh gives what a scan gives where the marks describe the file (`Describes`) or the
file became shorter. Within the life of a topic one of the two is so; a re-created topic reuses
segment ids, which is noticed only where the new file is shorter (`Detectable`).
-/

namespace ChronikStream

open Bytes Machine List SegmentMarks PartitionIndex

/-! ## Resuming a scan -/

namespace SegmentMarks

section
variable {m : SegmentMarks} {data front rest file : List UInt8}

/-- The fuel does not matter where there is one unit for every byte. -/
theorem extend_eq_of_le (h : data.length ≤ fuel) (h' : data.length ≤ fuel') :
    extend fuel m data = extend fuel' m data := by
  induction fuel generalizing fuel' m data with
  | zero =>
    cases length_eq_zero_iff.1 (Nat.le_zero.1 h)
    cases fuel' <;> rfl
  | succ fuel ih =>
    cases fuel' with
    | zero =>
      cases length_eq_zero_iff.1 (Nat.le_zero.1 h')
      rfl
    | succ fuel' =>
    rw [extend, extend]
    split
    case h_1 l hparse =>
      obtain ⟨hpos, -, -⟩ := parseRecord_bounds hparse
      have hdrop := data.length_drop (i := l.totalLen)
      exact ih (by omega) (by omega)
    case h_2 | h_3 => rfl

/-- The scan of `data` to the first position without a record, added to `m`. -/
def scan (m : SegmentMarks) (data : List UInt8) : SegmentMarks := extend data.length m data

theorem scan_of_record (h : parseRecord data = .record l) :
    scan m data = scan (m.add l) (data.drop l.totalLen) := by
  obtain ⟨hpos, hlen, -⟩ := parseRecord_bounds h
  have hdrop := data.length_drop (i := l.totalLen)
  have hfuel : data.length = (data.length - 1) + 1 := by omega
  rw [scan, hfuel, extend, h]
  exact extend_eq_of_le (by omega) (le_refl _)

theorem scan_append (h : WholeRecords front) (m : SegmentMarks) (rest : List UInt8) :
    scan m (front ++ rest) = scan (scan m front) rest := by
  induction h generalizing m with
  | nil => rfl
  | cons hparse _ ih =>
    obtain ⟨-, hlen, -⟩ := parseRecord_bounds hparse
    rw [scan_of_record (parseRecord_append hparse rest), scan_of_record hparse,
      drop_append_of_le_length hlen, ih]

theorem indexedLen_scan (h : WholeRecords front) (m : SegmentMarks) :
    (scan m front).indexedLen = m.indexedLen + front.length := by
  induction h generalizing m with
  | nil => rfl
  | cons hparse _ ih =>
    obtain ⟨-, hlen, -⟩ := parseRecord_bounds hparse
    rw [scan_of_record hparse, ih, length_drop]
    show m.indexedLen + _ + _ = _
    omega

theorem exists_front (data : List UInt8) :
    ∃ front rest, data = front ++ rest ∧ WholeRecords front ∧ ∀ m, scan m data = scan m front := by
  induction hn : data.length using Nat.strong_induction_on generalizing data with
  | _ n ih =>
    cases hparse : parseRecord data with
    | record l =>
      obtain ⟨hpos, hlen, -⟩ := parseRecord_bounds hparse
      have hdrop := data.length_drop (i := l.totalLen)
      obtain ⟨front, rest, hdata, hwhole, hscan⟩ := ih _ (by omega) (data.drop l.totalLen) rfl
      have htake : (data.take l.totalLen).length = l.totalLen := by
        rw [length_take]
        omega
      -- The first record, cut out of the data, followed by the records behind it.
      have hfirst : parseRecord (data.take l.totalLen ++ front) = .record l :=
        parseRecord_append (parseRecord_take hparse (le_refl _)) front
      have hbehind : (data.take l.totalLen ++ front).drop l.totalLen = front := drop_left' htake
      refine ⟨data.take l.totalLen ++ front, rest, ?_, .cons hfirst (by rwa [hbehind]), fun m => ?_⟩
      · rw [append_assoc, ← hdata, take_append_drop]
      · rw [scan_of_record hparse, scan_of_record hfirst, hbehind, hscan]
    | incomplete | invalid =>
      refine ⟨[], data, rfl, .nil, fun m => extend_of_not_record fun l hl => ?_⟩
      rw [hparse] at hl
      cases hl

/-! ## Marks that describe a file -/

/-- The marks are those of whole records at the front of the file. -/
def Describes (m : SegmentMarks) (file : List UInt8) : Prop :=
  ∃ front rest, file = front ++ rest ∧ WholeRecords front ∧ m = scan new front

theorem describes_scan (file : List UInt8) : (scan new file).Describes file := by
  obtain ⟨front, rest, hfile, hwhole, hscan⟩ := exists_front file
  exact ⟨front, rest, hfile, hwhole, hscan new⟩

theorem Describes.append (h : m.Describes file) (bytes : List UInt8) : m.Describes (file ++ bytes) := by
  obtain ⟨front, rest, rfl, hwhole, rfl⟩ := h
  exact ⟨front, rest ++ bytes, append_assoc _ _ _, hwhole, rfl⟩

theorem Describes.take (h : m.Describes file) (k : Nat) :
    (file.take k).length < m.indexedLen ∨ m.Describes (file.take k) := by
  obtain ⟨front, rest, rfl, hwhole, rfl⟩ := h
  have hlen : (scan new front).indexedLen = front.length := by
    rw [indexedLen_scan hwhole]
    exact zero_add _
  by_cases hk : front.length ≤ k
  · refine .inr ⟨front, rest.take (k - front.length), ?_, hwhole, rfl⟩
    rw [take_append, take_of_length_le hk]
  left
  rw [length_take]
  omega

theorem refresh_new (file : List UInt8) : new.refresh file = scan new file := by
  rw [refresh, ite_self]
  split
  case isTrue hlen =>
    cases length_eq_zero_iff.1 hlen
    rfl
  case isFalse => rfl

theorem refresh_of_lt (h : file.length < m.indexedLen) : m.refresh file = scan new file := by
  rw [← refresh_new, refresh, refresh, if_pos h, ite_self]

theorem Describes.refresh (h : m.Describes file) : m.refresh file = scan new file := by
  obtain ⟨front, rest, rfl, hwhole, rfl⟩ := h
  have hlen : (scan new front).indexedLen = front.length := by
    rw [indexedLen_scan hwhole]
    exact zero_add _
  have hkept : ¬ (front ++ rest).length < (scan new front).indexedLen := by
    rw [length_append]
    omega
  rw [refresh, if_neg hkept, hlen, drop_left, scan_append hwhole]
  split
  case isTrue heq =>
    have hrest : rest = [] := by
      rw [length_append] at heq
      exact length_eq_zero_iff.1 (by omega)
    rw [hrest]
    rfl
  case isFalse => exact extend_eq_of_le (by rw [length_append]; omega) (le_refl _)

end

end SegmentMarks

/-! ## The machine -/

/-- The segment files, `none` while the topic is deleted, and the cached index. The generations
count re-creations, that of the files and that of the last refresh. -/
structure CachedPartition where
  store : Option SegmentStore
  index : PartitionIndex
  generation : Nat
  indexed : Nat

namespace CachedPartition

inductive Action where
  | files (a : SegmentStore.Action)
  | read
  | deleteTopic
  | createTopic

/-- The files change without the index, and a read refreshes it. While the directory is gone a read
fails before it comes to the index. -/
def step (p : CachedPartition) : Action → Option CachedPartition
  | .files a => (p.store.bind (·.step a)).map fun st => { p with store := some st }
  | .read => some <|
    match p.store with
    | some st => { p with index := p.index.refresh st.files, indexed := p.generation }
    | none => p
  | .deleteTopic => some { p with store := none }
  | .createTopic =>
    match p.store with
    | some _ => none
    | none => some { p with store := some segmentStore.init, generation := p.generation + 1 }

def files (p : CachedPartition) : List (Nat × List UInt8) :=
  match p.store with
  | some st => st.files
  | none => []

/-- Of a deleted topic's index, every file whose id it knows is shorter than what was scanned under
it. -/
def Detectable (p : CachedPartition) : Prop :=
  p.indexed = p.generation ∨
    ∀ f ∈ p.files, ∀ m ∈ p.index.lookup f.1, m = .new ∨ f.2.length < m.indexedLen
deriving Decidable

/-- The condition on the steps of a run. -/
def DetectableReads (p : CachedPartition) : Action → Prop
  | .read => p.Detectable
  | _ => True

instance : DecidableRel DetectableReads := fun _ _ => by
  unfold DetectableReads
  split <;> infer_instance

end CachedPartition

def cachedPartition : Machine CachedPartition CachedPartition.Action where
  init := ⟨some segmentStore.init, [], 0, 0⟩
  step := CachedPartition.step

/-! ## What the index knows of the files -/

/-- Since the refresh the active segment has only grown, sealed ones were cut at most, and higher
ids are not known. -/
structure PartitionIndex.Tracks (index : PartitionIndex) (st : SegmentStore) : Prop where
  active : ∀ m ∈ index.lookup st.activeId, m.Describes st.active
  sealedFile : ∀ f ∈ st.sealedFiles, ∀ m ∈ index.lookup f.1,
    f.2.length < m.indexedLen ∨ m.Describes f.2
  unknown : ∀ id, st.activeId < id → index.lookup id = none

namespace PartitionIndex

section
variable {index : PartitionIndex} {st st' : SegmentStore}

theorem Tracks.nil (st : SegmentStore) : Tracks [] st := by
  constructor
  case active =>
    intro m hm
    cases hm
  case sealedFile =>
    intro f _ m hm
    cases hm
  case unknown => exact fun _ _ => rfl

theorem Tracks.file (h : index.Tracks st) (hf : f ∈ st.files)
    (hm : m ∈ index.lookup f.1) : f.2.length < m.indexedLen ∨ m.Describes f.2 := by
  rcases mem_concat.1 hf with hf | rfl
  · exact h.sealedFile f hf m hm
  · exact .inr (h.active m hm)

theorem Tracks.fileStep (h : index.Tracks st) (hs : SegmentStore.FileStep st st') :
    index.Tracks st' := by
  cases hs with
  | append bytes hsealed hid hactive =>
    constructor
    case active =>
      rw [hid, hactive]
      exact fun m hm => (h.active m hm).append bytes
    case sealedFile => rw [hsealed]; exact h.sealedFile
    case unknown => rw [hid]; exact h.unknown
  | reopen _ hfront hid hactive =>
    constructor
    case active =>
      rw [hid, h.unknown _ (Nat.lt_succ_self _)]
      intro m hm
      cases hm
    case sealedFile =>
      intro f hf m hm
      obtain ⟨file, hfile, k, rfl⟩ := hfront f hf
      rcases h.file hfile hm with hlt | hdesc
      · left
        rw [length_take]
        omega
      · exact hdesc.take k
    case unknown =>
      intro id hlt
      exact h.unknown id (by omega)
  | drop hsealed hid hactive =>
    constructor
    case active => rw [hid, hactive]; exact h.active
    case sealedFile => exact fun f hf => h.sealedFile f (hsealed.subset hf)
    case unknown => rw [hid]; exact h.unknown

/-- Where every entry is described or about a longer file, a refresh gives the index that is built
from nothing. -/
theorem refresh_eq_of_forall
    (h : ∀ f ∈ files, ∀ m ∈ index.lookup f.1, m.refresh f.2 = new.refresh f.2) :
    index.refresh files = refresh [] files := by
  refine map_congr_left fun f hf => ?_
  cases hm : index.lookup f.1 with
  | none => rfl
  | some m => exact congrArg (Prod.mk f.1) (h f hf m hm)

theorem Tracks.refresh (h : index.Tracks st) : index.refresh st.files = refresh [] st.files := by
  refine refresh_eq_of_forall fun f hf m hm => ?_
  rw [refresh_new]
  rcases h.file hf hm with hlt | hdesc
  · exact refresh_of_lt hlt
  · exact hdesc.refresh

theorem lookup_refresh_nil {files : List (Nat × List UInt8)} {id : Nat}
    (h : m ∈ (refresh [] files).lookup id) : ∃ f ∈ files, f.1 = id ∧ m = .scan .new f.2 := by
  induction files with
  | nil => cases h
  | cons f fs ih =>
    rw [refresh, map_cons, lookup_cons] at h
    split at h
    case h_1 hid =>
      refine ⟨f, .head _, (eq_of_beq hid).symm, ?_⟩
      rw [← refresh_new]
      exact (Option.mem_some.1 h).symm
    case h_2 => exact exists_mem_cons_of_exists (ih h)

theorem tracks_refresh_nil (hids : st.AscendingIds) : (refresh [] st.files).Tracks st where
  active m hm := by
    obtain ⟨f, hf, hid, rfl⟩ := lookup_refresh_nil hm
    cases hids.eq_of_id (g := (st.activeId, st.active)) hf mem_concat_self hid
    exact describes_scan _
  sealedFile f hf m hm := by
    obtain ⟨g, hg, hid, rfl⟩ := lookup_refresh_nil hm
    cases hids.eq_of_id hg (mem_append_left _ hf) hid
    exact .inr (describes_scan _)
  unknown id hlt := by
    cases hm : (refresh [] st.files).lookup id with
    | none => rfl
    | some m =>
    obtain ⟨f, hf, rfl, -⟩ := lookup_refresh_nil hm
    have := hids.le_activeId hf
    omega

end

end PartitionIndex

/-! ## Every run -/

namespace CachedPartition

/-- The ids ascend, and an index that was refreshed on this generation of files tracks them. -/
structure CacheInv (p : CachedPartition) : Prop where
  ids : ∀ st ∈ p.store, st.AscendingIds
  tracks : ∀ st ∈ p.store, p.indexed = p.generation → p.index.Tracks st
  past : p.indexed ≤ p.generation

section
variable {p p' : CachedPartition} {st : SegmentStore}

/-- On files that the index can tell from those it knows, a refresh gives the index that is built
from nothing. -/
theorem CacheInv.refresh (h : p.CacheInv) (hdet : p.Detectable) :
    p.index.refresh p.files = refresh [] p.files := by
  rcases hdet with hgen | hshort
  · cases hst : p.store with rw [files, hst]
    | none =>
      rfl
    | some st =>
      exact (h.tracks st hst hgen).refresh
  · refine refresh_eq_of_forall fun f hf m hm => ?_
    rcases hshort f hf m hm with rfl | hlt
    · rfl
    · rw [refresh_new, refresh_of_lt hlt]

theorem cacheInv_init : cachedPartition.init.CacheInv where
  ids st hst := by
    cases hst
    exact pairwise_singleton _ _
  tracks st _ _ := .nil st
  past := le_refl _

theorem CacheInv.step (h : p.CacheInv) (hok : p.DetectableReads a)
    (hs : p.step a = some p') : p'.CacheInv := by
  cases a with
  | files a =>
    obtain ⟨st', hst', rfl⟩ := Option.map_eq_some_iff.1 hs
    obtain ⟨st, hst, hstep⟩ := Option.bind_eq_some_iff.1 hst'
    have hfile := SegmentStore.fileStep_of_step hstep
    refine ⟨?_, ?_, h.past⟩
    · intro st hmem
      cases hmem
      exact (h.ids _ hst).fileStep hfile
    · intro st hmem hgen
      cases hmem
      exact (h.tracks _ hst hgen).fileStep hfile
  | read =>
    rw [CachedPartition.step] at hs
    split at hs
    case h_1 st hst =>
      cases hs
      have hrefresh := h.refresh hok
      rw [files, hst] at hrefresh
      rw [hrefresh]
      refine ⟨h.ids, fun st' hst' _ => ?_, le_refl _⟩
      cases hst.symm.trans hst'
      exact tracks_refresh_nil (h.ids st hst)
    case h_2 =>
      cases hs
      exact h
  | deleteTopic =>
    cases hs
    refine ⟨?_, ?_, h.past⟩
    · intro st hst
      cases hst
    · intro st hst
      cases hst
  | createTopic =>
    rw [CachedPartition.step] at hs
    split at hs <;> cases hs
    refine ⟨?_, ?_, Nat.le_succ_of_le h.past⟩
    · intro st hst
      cases hst
      exact pairwise_singleton _ _
    · intro st _ hgen
      -- The index cannot be of a generation that begins only now.
      have hgen : p.indexed = p.generation + 1 := hgen
      have := h.past
      omega

/-- Where every read of a re-created topic finds shorter files, a read through the cached index is
one through an index built from nothing. -/
theorem readFrom_cached_eq (h : Reaches cachedPartition DetectableReads p) (hdet : p.Detectable)
    (search : Search) (offset : Int) (maxRecords : Nat) :
    p.index.readFrom search p.files offset maxRecords =
      readFrom search [] p.files offset maxRecords := by
  have hinv : p.CacheInv := h.invariant cacheInv_init fun _ _ _ hi hok hs => hi.step hok hs
  rw [readFrom, readFrom, hinv.refresh hdet]

end

end CachedPartition

/-! ## A topic that is created again -/

namespace IndexRefreshFixture

open CachedPartition IndexedReadFixture

def write (r : WrittenRecord) : CommitWrite := ⟨r, true⟩

def single : WrittenRecord := ⟨record 0 0, by decide⟩

def five : WrittenRecord := ⟨record 0 4, by decide⟩

/-- A partition with one batch is read, its topic is deleted and created again, and a batch of the
same length is written. -/
def recreated : List Action :=
  [.files (.commit [write single]), .read, .deleteTopic, .createTopic, .files (.commit [write five])]

/-- The same with a read before the new batch is written; then the log is cut and appended to. -/
def readBetween : List Action :=
  [.files (.commit [write single]), .read, .deleteTopic, .createTopic, .read,
    .files (.commit [write single]), .files (.commit [write five]), .read, .files (.truncate 1),
    .files (.commit [write five])]

end IndexRefreshFixture

section
open IndexRefreshFixture CachedPartition

/-- The stale marks say that the segment ends at offset 0, so a read from offset 3 does not return
the batch at the offsets 0 to 4. -/
theorem stale_marks_after_recreation : ¬ ∀ p, Reaches cachedPartition Always p →
    ∀ search, Search.Correct search → ∀ offset maxRecords,
      p.index.readFrom search p.files offset maxRecords =
        readFrom search [] p.files offset maxRecords := by
  intro h
  obtain ⟨p, hp, hread⟩ := exists_reaches_of_run cachedPartition Always recreated
    (fun p => (p.index.readFrom Search.byLast p.files 3 10).2 ≠
      (readFrom Search.byLast [] p.files 3 10).2) (by decide +kernel)
  exact hread (congrArg Prod.snd (h p hp _ Search.byLast_correct 3 10))

theorem readFrom_cached_after_cut :
    ∃ p, Reaches cachedPartition DetectableReads p ∧ p.Detectable ∧
      (p.generation = 1 ∧ p.index ≠ [] ∧ p.index ≠ refresh [] p.files) ∧
      ∀ offset maxRecords, p.index.readFrom Search.byLast p.files offset maxRecords =
        readFrom Search.byLast [] p.files offset maxRecords := by
  obtain ⟨p, hp, hdet, hinfo⟩ := exists_reaches_of_run cachedPartition DetectableReads readBetween
    (fun p => p.Detectable ∧
      (p.generation = 1 ∧ p.index ≠ [] ∧ p.index ≠ refresh [] p.files)) (by decide +kernel)
  exact ⟨p, hp, hdet, hinfo, fun offset maxRecords => readFrom_cached_eq hp hdet _ offset maxRecords⟩

end

end ChronikStream
