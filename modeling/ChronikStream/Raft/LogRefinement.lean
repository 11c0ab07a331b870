import Mathlib.Algebra.GroupWithZero.Nat
import ChronikStream.Lib.IndexedLog
import ChronikStream.Lib.Run
import ChronikStream.Raft.WalStorage

/-!
# The storage against the Raft log

The log that Raft means is an `IndexedLog`. The storage overwrites a list in memory in place and
reads older entries from the WAL files, where of several entries with one index the one with the
highest term is taken. The two agree under `Follows`: the memory holds the end of the log
(`HoldsEnd`), and the WAL has every entry and nothing better (`InWal`).
-/

namespace ChronikStream.Raft

open Machine RaftWalStorage List Option IndexedLog

/-! ## The machine -/

/-- The storage with the entries of its WAL files, and the log that Raft means. A panic leaves no
storage. -/
structure LogStorage where
  memory : Option RaftWalStorage
  wal : List (List Entry)
  log : IndexedLog Entry

/-- Entries with consecutive indexes from `start` on. -/
def Contiguous (start : Nat) (es : List Entry) : Prop :=
  es.map (·.index.toNat) = range' start es.length
deriving Decidable

/-- Entries are written to the last file; the first write makes one. -/
def writeWal : List (List Entry) → List Entry → List (List Entry)
  | [], es => [es]
  | [file], es => [file ++ es]
  | file :: next :: files, es => file :: writeWal (next :: files) es

namespace LogStorage

variable (s : LogStorage) (m : RaftWalStorage)

inductive Action where
  | append (first : Entry) (rest : List Entry)
  | saveSnapshot (snapshot : SnapshotMetadata)
  | truncateLogToSnapshot (snapshotIndex : Nat)
  | rotate

/-- What the caller keeps to: consecutive entries that fit a record, from an index of the log or
right behind it. -/
def Appendable (log : IndexedLog Entry) (start : Nat) (es : List Entry) : Prop :=
  Contiguous start es ∧ (∀ e ∈ es, (Message.entry e).FitsRecord) ∧ log.base < start ∧
    start ≤ log.lastIndex + 1
deriving Decidable

def append (start : Nat) (es : List Entry) : LogStorage where
  memory := s.memory.bind (·.appendEntries es)
  wal := writeWal s.wal es
  log := s.log.splice start es

def step : Action → Option LogStorage
  | .append first rest =>
    if Appendable s.log first.index.toNat (first :: rest) then
      some (s.append first.index.toNat (first :: rest))
    else none
  | .saveSnapshot snapshot => some { s with memory := s.memory.map (·.saveSnapshot snapshot) }
  | .truncateLogToSnapshot k =>
    some { s with memory := s.memory.map (·.truncateLogToSnapshot k), log := s.log.compact k }
  | .rotate => some { s with wal := s.wal ++ [[]] }

def machine : Machine LogStorage Action where
  init := ⟨some .new, [], ⟨0, []⟩⟩
  step := step

/-- Beyond `Appendable`: an append does not begin below memory, leaves nothing behind it, is newer
than the WAL at its indexes, and agrees with the snapshot. -/
def FollowsAppend (start : Nat) (es : List Entry) : Prop :=
  m.firstIndex ≤ start ∧ s.log.lastIndex < start + es.length ∧
    (∀ e ∈ es, ∀ old ∈ s.wal.flatten, old.index = e.index → old = e ∨ old.term < e.term) ∧
    ∀ e ∈ es, e.index.toNat = m.snapshot.index → e.term = m.snapshot.term

instance (start : Nat) (es : List Entry) : Decidable (FollowsAppend s m start es) :=
  inferInstanceAs (Decidable (_ ∧ _))

def Follows : Action → Prop
  | .append first rest => ∀ m ∈ s.memory, FollowsAppend s m first.index.toNat (first :: rest)
  | .saveSnapshot snapshot => ∀ e ∈ s.log.get? snapshot.index, e.term = snapshot.term
  | .truncateLogToSnapshot _ | .rotate => True

instance : DecidableRel Follows := fun _ _ => by
  unfold Follows
  split <;> infer_instance

/-- An append after which the entries in memory are not too many, or do not begin right behind the
snapshot. -/
def Untrimmed : Action → Prop
  | .append first rest =>
    ∀ m ∈ s.memory, first.index.toNat + (first :: rest).length ≤ m.firstIndex + maxUnstableEntries ∨
      m.firstIndex ≠ m.snapshot.index + 1
  | .saveSnapshot _ | .truncateLogToSnapshot _ | .rotate => True

def FollowsUntrimmed (a : Action) : Prop := Follows s a ∧ Untrimmed s a

end LogStorage

/-! ## The memory holds the end of the log -/

section
variable {log : IndexedLog Entry} {m : RaftWalStorage}

/-- The entries in memory are those of the log from the first index on; without any, nothing of the
log is missing. -/
structure HoldsEnd (log : IndexedLog Entry) (m : RaftWalStorage) : Prop where
  low : log.base < m.firstIndex
  high : m.firstIndex ≤ log.lastIndex + 1
  held : m.entries = log.entries.drop (m.firstIndex - (log.base + 1))
  empty : m.entries = [] → m.firstIndex = log.firstIndex

theorem HoldsEnd.length_entries (h : HoldsEnd log m) :
    m.firstIndex + m.entries.length = log.lastIndex + 1 := by
  obtain ⟨hlow, hhigh, hheld, -⟩ := h
  rw [IndexedLog.lastIndex] at hhigh ⊢
  rw [hheld, length_drop]
  omega

theorem HoldsEnd.lastIndex_eq (h : HoldsEnd log m) : m.lastIndex = log.lastIndex := by
  have := h.length_entries
  rw [RaftWalStorage.lastIndex]
  omega

theorem HoldsEnd.getElem? (h : HoldsEnd log m) (hi : m.firstIndex ≤ i) :
    m.entries[i - m.firstIndex]? = log.get? i := by
  have hlow := h.low
  rw [h.held, getElem?_drop, get?, if_pos (by omega)]
  congr 1
  omega

theorem putEntry_eq (hidx : e.index.toNat = start) (hfirst : first ≤ start)
    (hlen : start ≤ first + kept.length) :
    putEntry first kept e = some (kept.take (start - first) ++ e :: kept.drop (start - first + 1)) := by
  rw [putEntry, hidx, if_neg (by omega)]
  dsimp only
  by_cases hlt : start - first < kept.length
  · rw [if_neg (by omega), set_eq_take_append_cons_drop, if_pos hlt]
  have hend : start - first = kept.length := by omega
  rw [hend, if_pos (le_refl _), Nat.add_sub_cancel_left, take_length,
    drop_of_length_le (Nat.le_succ _), set_append_right _ _ (le_refl _), Nat.sub_self]
  rfl

theorem foldlM_putEntry (hes : Contiguous start es) (hfirst : first ≤ start)
    (hlen : start ≤ first + kept.length) :
    es.foldlM (putEntry first) kept =
      some (kept.take (start - first) ++ es ++ kept.drop (start - first + es.length)) := by
  induction es generalizing start kept with
  | nil =>
    show some kept = _
    rw [append_nil, length_nil, add_zero, take_append_drop]
  | cons e es ih =>
    rw [Contiguous, map_cons, length_cons, range'_succ] at hes
    obtain ⟨hidx, hes⟩ := cons.inj hes
    -- the list after the first entry, cut behind it
    have hcut : kept.take (start - first) ++ e :: kept.drop (start - first + 1) =
        (kept.take (start - first) ++ [e]) ++ kept.drop (start - first + 1) := by
      rw [append_assoc, singleton_append]
    have hlen' : (kept.take (start - first) ++ [e]).length = start + 1 - first := by
      rw [length_append, length_take, length_singleton]
      omega
    rw [foldlM_cons, putEntry_eq hidx hfirst hlen, bind_eq_bind, bind_some, hcut,
      ih hes (by omega) (by rw [length_append]; omega), take_left' hlen',
      drop_append, hlen', Nat.add_sub_cancel_left, drop_drop,
      drop_of_length_le (by omega), append_assoc,
      append_assoc, append_assoc, add_right_comm]
    rfl

theorem appendEntries_eq (hes : Contiguous start es) (hne : es ≠ []) (hfirst : m.firstIndex ≤ start)
    (hlow : start ≤ m.firstIndex + m.entries.length)
    (hhigh : m.firstIndex + m.entries.length ≤ start + es.length) :
    m.appendEntries es =
      some (trim { m with entries := m.entries.take (start - m.firstIndex) ++ es }) := by
  rw [appendEntries, if_neg hne, foldlM_putEntry hes hfirst hlow, drop_of_length_le (by omega),
    append_nil]
  rfl

section
variable (h : HoldsEnd log m)
include h

theorem HoldsEnd.splice (hne : es ≠ []) (hfirst : m.firstIndex ≤ start)
    (hstart : start ≤ log.lastIndex + 1) :
    HoldsEnd (log.splice start es)
      { m with entries := m.entries.take (start - m.firstIndex) ++ es } where
  low := h.low
  high := by
    have hlow := h.low
    rw [lastIndex_splice (by omega) hstart]
    exact Nat.le_add_right_of_le hfirst
  held := by
    have hlow := h.low
    rw [IndexedLog.lastIndex] at hstart
    show m.entries.take (start - m.firstIndex) ++ es =
      (log.entries.take (start - (log.base + 1)) ++ es).drop (m.firstIndex - (log.base + 1))
    rw [h.held, drop_append_of_le_length (by rw [length_take]; omega), drop_take]
    congr 2
    omega
  empty := fun hnil => absurd (append_eq_nil_iff.1 hnil).2 hne

theorem HoldsEnd.drop (hn : n < m.entries.length) :
    HoldsEnd log { m with entries := m.entries.drop n, firstIndex := m.firstIndex + n } where
  low := Nat.lt_add_right _ h.low
  high := by
    rw [← h.length_entries]
    exact Nat.add_le_add_left hn.le _
  held := by
    have hlow := h.low
    show m.entries.drop n = log.entries.drop (m.firstIndex + n - (log.base + 1))
    rw [h.held, drop_drop]
    congr 1
    omega
  empty := fun hnil => absurd (drop_eq_nil_iff.1 hnil) (not_le.2 hn)

theorem HoldsEnd.trim : HoldsEnd log m.trim := by
  rw [RaftWalStorage.trim]
  split
  case isFalse => exact h
  case isTrue hmany =>
    have hmax : 0 < maxUnstableEntries := by decide
    exact h.drop (Nat.sub_lt (by omega) hmax)

theorem HoldsEnd.compact : HoldsEnd (log.compact k) (m.truncateLogToSnapshot k) := by
  have hlow := h.low
  have hhigh := h.high
  have hlast : (log.compact k).lastIndex = max log.lastIndex k := lastIndex_compact
  rw [truncateLogToSnapshot]
  split
  case isTrue hk =>
    constructor
    case low => exact Nat.max_lt.2 ⟨hlow, hk⟩
    case high => omega
    case held =>
      show m.entries = (log.entries.drop (k - log.base)).drop (m.firstIndex - (max log.base k + 1))
      rw [h.held, drop_drop]
      congr 1
      omega
    case empty =>
      intro hnil
      have hfirst : m.firstIndex = log.base + 1 := h.empty hnil
      show m.firstIndex = max log.base k + 1
      omega
  case isFalse hk =>
    constructor
    case low =>
      show max log.base k < k + 1
      omega
    case high =>
      show k + 1 ≤ _
      omega
    case held =>
      show m.entries.drop (k + 1 - m.firstIndex) =
        (log.entries.drop (k - log.base)).drop (k + 1 - (max log.base k + 1))
      rw [h.held, drop_drop, drop_drop]
      congr 1
      omega
    case empty =>
      intro _
      show k + 1 = max log.base k + 1
      omega

end

theorem snapshot_trim (m : RaftWalStorage) : m.trim.snapshot = m.snapshot := by
  rw [RaftWalStorage.trim]
  split <;> rfl

theorem snapshot_truncateLogToSnapshot (m : RaftWalStorage) (k : Nat) :
    (m.truncateLogToSnapshot k).snapshot = m.snapshot := by
  rw [truncateLogToSnapshot]
  split <;> rfl

theorem HoldsEnd.append (h : HoldsEnd log m) (hes : Contiguous start es) (hne : es ≠ [])
    (hfirst : m.firstIndex ≤ start) (hstart : start ≤ log.lastIndex + 1)
    (hend : log.lastIndex < start + es.length) :
    ∃ m', m.appendEntries es = some m' ∧ HoldsEnd (log.splice start es) m' ∧
      m'.snapshot = m.snapshot ∧
      (start + es.length ≤ m.firstIndex + maxUnstableEntries ∨ m.firstIndex ≠ m.snapshot.index + 1 →
        m'.firstIndex = m.firstIndex) := by
  have hlen := h.length_entries
  refine ⟨_, appendEntries_eq hes hne hfirst (by omega) (by omega),
    (h.splice hne hfirst hstart).trim, snapshot_trim _, ?_⟩
  · intro huntrimmed
    rw [RaftWalStorage.trim, if_neg]
    rintro ⟨hmany, heq⟩
    rcases huntrimmed with hfew | hne
    · rw [length_append, length_take] at hmany
      omega
    · exact hne heq

end

/-! ## The WAL has every entry of the log -/

section
variable {log : IndexedLog Entry} {wal : List (List Entry)}

section
variable (hes : Contiguous start es)
include hes

theorem Contiguous.index_eq (he : es[k]? = some e) : e.index.toNat = start + k := by
  have hk := congrArg (·[k]?) hes
  obtain ⟨hlt, -⟩ := List.getElem?_eq_some_iff.1 he
  rw [getElem?_map, he, getElem?_range' hlt, one_mul] at hk
  exact some.inj hk

theorem Contiguous.le_index (he : e ∈ es) : start ≤ e.index.toNat := by
  obtain ⟨k, hk⟩ := mem_iff_getElem?.1 he
  rw [hes.index_eq hk]
  exact Nat.le_add_right _ _

theorem Contiguous.eq_of_index (he : e ∈ es) (he' : e' ∈ es) (h : e.index = e'.index) : e = e' := by
  obtain ⟨k, hk⟩ := mem_iff_getElem?.1 he
  obtain ⟨k', hk'⟩ := mem_iff_getElem?.1 he'
  have heq : start + k = start + k' := by rw [← hes.index_eq hk, ← hes.index_eq hk', h]
  rw [add_left_cancel heq, hk'] at hk
  exact (some.inj hk).symm

end

theorem flatten_writeWal : ∀ (wal : List (List Entry)) (es : List Entry),
    (writeWal wal es).flatten = wal.flatten ++ es
  | [], es => append_nil es
  | [file], es => by rw [writeWal, flatten_singleton, flatten_singleton]
  | file :: next :: files, es => by
    rw [writeWal, flatten_cons, flatten_writeWal (next :: files) es, ← append_assoc]
    rfl

/-- Of the entries with its index, one of the log is the one a read of the WAL takes. -/
structure InWal (log : IndexedLog Entry) (wal : List (List Entry)) : Prop where
  indexed : ∀ i e, log.get? i = some e → e.index.toNat = i
  best : ∀ i e, log.get? i = some e → e.BestOf wal.flatten
  fits : ∀ e ∈ wal.flatten, (Message.entry e).FitsRecord

section
variable (h : InWal log wal)
include h

theorem InWal.compact : InWal (log.compact k) wal where
  indexed i e he := h.indexed i e (get?_of_compact he)
  best i e he := h.best i e (get?_of_compact he)
  fits := h.fits

theorem InWal.rotate : InWal log (wal ++ [[]]) := by
  have hflatten : (wal ++ [[]]).flatten = wal.flatten := by
    rw [flatten_append, flatten_singleton, append_nil]
  constructor
  case indexed => exact h.indexed
  case best =>
    rw [hflatten]
    exact h.best
  case fits =>
    rw [hflatten]
    exact h.fits

theorem InWal.splice (hes : Contiguous start es)
    (hfits : ∀ e ∈ es, (Message.entry e).FitsRecord) (hlow : log.base < start)
    (hhigh : start ≤ log.lastIndex + 1)
    (hnewer : ∀ e ∈ es, ∀ old ∈ wal.flatten, old.index = e.index → old = e ∨ old.term < e.term) :
    InWal (log.splice start es) (writeWal wal es) := by
  constructor
  case indexed =>
    intro i e he
    rcases get?_splice_eq_some hlow hhigh he with ⟨-, he⟩ | ⟨hi, he⟩
    · exact h.indexed i e he
    · rw [hes.index_eq he]
      omega
  case best =>
    intro i e he
    rw [flatten_writeWal]
    rcases get?_splice_eq_some hlow hhigh he with ⟨hi, he⟩ | ⟨hi, he⟩
    · obtain ⟨hmem, hyield⟩ := h.best i e he
      refine ⟨mem_append_left _ hmem, fun y hy hidx => ?_⟩
      rcases mem_append.1 hy with hy | hy
      · exact hyield y hy hidx
      have hle := hes.le_index hy
      rw [hidx, h.indexed i e he] at hle
      omega
    · refine ⟨mem_append_right _ (mem_of_getElem? he), fun y hy hidx => ?_⟩
      rcases mem_append.1 hy with hy | hy
      · exact hnewer e (mem_of_getElem? he) y hy hidx
      · exact .inl (hes.eq_of_index hy (mem_of_getElem? he) hidx)
  case fits =>
    intro e he
    rw [flatten_writeWal] at he
    rcases mem_append.1 he with he | he
    · exact h.fits e he
    · exact hfits e he

theorem InWal.readEntriesFromWal_eq (crc : List UInt8 → UInt32)
    (hlow : log.base < low) (hrange : low < high) (hhigh : high ≤ log.lastIndex + 1) :
    readEntriesFromWal (entryFiles crc wal) low high = .ok (log.slice low high) := by
  refine readEntriesFromWal_entryFiles (Nat.zero_lt_of_lt hlow) hrange ?_ h.fits ?_ ?_ ?_
  · rintro rfl
    obtain ⟨e, he⟩ := exists_get?_eq_some hlow (by omega)
    exact absurd (h.best low e he).1 not_mem_nil
  · refine pairwise_slice hlow fun i j a b hij ha hb => UInt64.lt_iff_toNat_lt.2 ?_
    rwa [h.indexed i a ha, h.indexed j b hb]
  · intro e he
    obtain ⟨i, hi, hlt, hget⟩ := (mem_slice_iff hlow).1 he
    rw [h.indexed i e hget]
    exact ⟨h.best i e hget, hi, hlt⟩
  · intro i hi hlt
    obtain ⟨e, he⟩ := exists_get?_eq_some (l := log) (i := i) (by omega) (by omega)
    exact ⟨e, (mem_slice_iff hlow).2 ⟨i, hi, hlt, he⟩, h.indexed i e he⟩

end

end

/-! ## The refinement -/

namespace LogStorage

/-- The storage answers as the log does, but for the first index. -/
structure Agrees (crc : List UInt8 → UInt32) (s : LogStorage) (m : RaftWalStorage) : Prop where
  lastIndex : m.lastIndex = s.log.lastIndex
  term : ∀ i e, s.log.get? i = some e → m.term (entryFiles crc s.wal) i = .ok e.term
  entries : ∀ low high, s.log.firstIndex ≤ low → high ≤ s.log.lastIndex + 1 →
    m.getEntries (entryFiles crc s.wal) low high none = .ok (s.log.slice low high)

structure Refines (s : LogStorage) (m : RaftWalStorage) : Prop where
  memory : s.memory = some m
  holds : HoldsEnd s.log m
  inWal : InWal s.log s.wal
  snapshot : ∀ e, s.log.get? m.snapshot.index = some e → e.term = m.snapshot.term

variable {s : LogStorage} {m : RaftWalStorage} {a : Action}

theorem Refines.term_eq (h : Refines s m) (crc : List UInt8 → UInt32)
    (he : s.log.get? i = some e) : m.term (entryFiles crc s.wal) i = .ok e.term := by
  rw [RaftWalStorage.term]
  split
  case isTrue hsnap =>
    rw [hsnap] at he
    rw [h.snapshot e he]
  case isFalse =>
  split
  case isTrue =>
    obtain ⟨hbase, -⟩ := get?_eq_some_iff.1 he
    have hlast := le_lastIndex_of_get? he
    rw [h.inWal.readEntriesFromWal_eq crc hbase (Nat.lt_succ_self i) (by omega), slice_succ he]
  case isFalse hmem => rw [h.holds.getElem? (not_lt.1 hmem), he]

theorem Refines.getEntries_eq (h : Refines s m) (crc : List UInt8 → UInt32)
    (hlow : s.log.firstIndex ≤ low) (hhigh : high ≤ s.log.lastIndex + 1) :
    m.getEntries (entryFiles crc s.wal) low high none = .ok (s.log.slice low high) := by
  have hlen := h.holds.length_entries
  rw [getEntries]
  split
  case isTrue hempty =>
    rw [slice, Nat.sub_eq_zero_of_le hempty, take_zero]
  case isFalse hlt =>
  split
  case isTrue hnil =>
    -- then the log has no entry in any range
    have hfirst := h.holds.empty hnil
    rw [hnil, length_nil] at hlen
    omega
  case isFalse =>
  split
  case isTrue => exact h.inWal.readEntriesFromWal_eq crc hlow (not_le.1 hlt) hhigh
  case isFalse hmem =>
  rw [if_neg (by omega)]
  show Except.ok ((m.entries.drop (low - m.firstIndex)).take (high - low)) = _
  rw [h.holds.held, drop_drop]
  have hbase := h.holds.low
  congr 3
  omega

theorem Refines.agrees (h : Refines s m) (crc : List UInt8 → UInt32) : Agrees crc s m where
  lastIndex := h.holds.lastIndex_eq
  term _ _ he := h.term_eq crc he
  entries _ _ hlow hhigh := h.getEntries_eq crc hlow hhigh

theorem refines_init : Refines machine.init .new where
  memory := rfl
  holds := ⟨Nat.lt_succ_self 0, le_refl _, rfl, fun _ => rfl⟩
  inWal := by constructor <;> simp [machine]
  snapshot := by simp [machine]

theorem Refines.append (h : Refines s m) (hne : es ≠ [])
    (happend : Appendable s.log start es) (hfollows : FollowsAppend s m start es) :
    ∃ m', Refines (s.append start es) m' ∧
      (start + es.length ≤ m.firstIndex + maxUnstableEntries ∨ m.firstIndex ≠ m.snapshot.index + 1 →
        m'.firstIndex = m.firstIndex) := by
  obtain ⟨hes, hfits, hlow, hhigh⟩ := happend
  obtain ⟨hfirst, hend, hnewer, hsnap⟩ := hfollows
  obtain ⟨m', hm', hholds, hsnap', hkept⟩ := h.holds.append hes hne hfirst hhigh hend
  refine ⟨m', ⟨?_, hholds, h.inWal.splice hes hfits hlow hhigh hnewer, ?_⟩, hkept⟩
  · show s.memory.bind (·.appendEntries es) = some m'
    rw [h.memory, bind_some, hm']
  · intro e he
    rw [hsnap'] at he ⊢
    rcases get?_splice_eq_some hlow hhigh he with ⟨-, he⟩ | ⟨hi, he⟩
    · exact h.snapshot e he
    refine hsnap e (mem_of_getElem? he) ?_
    rw [hes.index_eq he]
    omega

theorem Refines.step (h : Refines s m) (hfollows : Follows s a) (hstep : machine.step s a = some s') :
    ∃ m', Refines s' m' ∧
      (Untrimmed s a → m.firstIndex = s.log.firstIndex → m'.firstIndex = s'.log.firstIndex) := by
  cases a with
  | append first rest =>
    obtain ⟨happend, rfl⟩ := of_guard hstep
    obtain ⟨m', hm', hkept⟩ := h.append (cons_ne_nil _ _) happend (hfollows m h.memory)
    refine ⟨m', hm', fun huntrimmed hfirst => ?_⟩
    rw [hkept (huntrimmed m h.memory), hfirst]
    rfl
  | saveSnapshot snapshot =>
    cases hstep
    refine ⟨m.saveSnapshot snapshot, ⟨?_, ⟨h.holds.low, h.holds.high, h.holds.held, h.holds.empty⟩,
      h.inWal, hfollows⟩, fun _ hfirst => hfirst⟩
    rw [h.memory]
    rfl
  | truncateLogToSnapshot k =>
    cases hstep
    refine ⟨m.truncateLogToSnapshot k, ⟨?_, h.holds.compact, h.inWal.compact, ?_⟩, fun _ hfirst => ?_⟩
    · rw [h.memory]
      rfl
    · intro e he
      rw [snapshot_truncateLogToSnapshot] at he ⊢
      exact h.snapshot e (get?_of_compact he)
    · have hbase : m.firstIndex = s.log.base + 1 := hfirst
      show (m.truncateLogToSnapshot k).firstIndex = max s.log.base k + 1
      rw [RaftWalStorage.truncateLogToSnapshot]
      split
      case isTrue hk => omega
      case isFalse hk =>
        show k + 1 = _
        omega
  | rotate =>
    cases hstep
    exact ⟨m, ⟨h.memory, h.holds, h.inWal.rotate, h.snapshot⟩, fun _ hfirst => hfirst⟩

theorem exists_refines (h : Reaches machine Follows s) : ∃ m, Refines s m := by
  refine h.invariant (I := fun s => ∃ m, Refines s m) ⟨.new, refines_init⟩ ?_
  rintro s a s' ⟨m, hm⟩ hfollows hstep
  obtain ⟨m', hm', -⟩ := hm.step hfollows hstep
  exact ⟨m', hm'⟩

theorem exists_refines_untrimmed (h : Reaches machine FollowsUntrimmed s) :
    ∃ m, Refines s m ∧ m.firstIndex = s.log.firstIndex := by
  refine h.invariant (I := fun s => ∃ m, Refines s m ∧ m.firstIndex = s.log.firstIndex)
    ⟨.new, refines_init, rfl⟩ ?_
  rintro s a s' ⟨m, hm, hfirst⟩ ⟨hfollows, huntrimmed⟩ hstep
  obtain ⟨m', hm', hkept⟩ := hm.step hfollows hstep
  exact ⟨m', hm', hkept huntrimmed hfirst⟩

/-- The storage answers as the log does, also for what was trimmed; the first index only where
nothing is. -/
theorem storage_refines_log (crc : List UInt8 → UInt32) (h : Reaches machine Follows s) :
    ∃ m, s.memory = some m ∧ Agrees crc s m ∧
      (Reaches machine FollowsUntrimmed s → m.firstIndex = s.log.firstIndex) := by
  obtain ⟨m, hm⟩ := exists_refines h
  refine ⟨m, hm.memory, hm.agrees crc, fun huntrimmed => ?_⟩
  obtain ⟨m', hm', hfirst⟩ := exists_refines_untrimmed huntrimmed
  have heq : some m = some m' := hm.memory.symm.trans hm'.memory
  cases heq
  exact hfirst

/-- A storage grows, is compacted, and has a conflicting entry replaced in the next term. -/
def replaceConflict : List Action :=
  [.append ⟨0, 1, 1, [], [], false⟩ [⟨0, 1, 2, [], [], false⟩], .saveSnapshot ⟨1, 1⟩,
    .truncateLogToSnapshot 1, .rotate, .append ⟨0, 2, 2, [], [], false⟩ [⟨0, 2, 3, [], [], false⟩]]

theorem storage_refines_log_conflict :
    ∃ s, Reaches machine Follows s ∧ (s.log.firstIndex = 2 ∧ s.log.lastIndex = 3) ∧
      ∃ m, s.memory = some m ∧ Agrees (fun _ => 0) s m ∧
        (Reaches machine FollowsUntrimmed s → m.firstIndex = s.log.firstIndex) :=
  exists_reaches_and machine Follows replaceConflict (by decide +kernel) fun _ hs => storage_refines_log (fun _ => 0) hs

/-- An entry of a newer term at the first index leaves the older entry behind it in the storage. -/
theorem conflicting_append_keeps_tail :
    ¬ ∀ (crc : List UInt8 → UInt32) (s : LogStorage), Reaches machine Always s →
      ∃ m, s.memory = some m ∧ Agrees crc s m ∧ m.firstIndex = s.log.firstIndex := by
  intro h
  obtain ⟨s, hs, hlog, hmemory⟩ := exists_reaches_of_run machine Always
    [.append ⟨0, 1, 1, [], [], false⟩ [⟨0, 1, 2, [], [], false⟩], .append ⟨0, 2, 1, [], [], false⟩ []]
    (fun s => s.log.lastIndex = 1 ∧ s.memory.map (·.lastIndex) = some 2) (by decide +kernel)
  obtain ⟨m, hm, hagrees, -⟩ := h (fun _ => 0) s hs
  have hlast := hagrees.lastIndex
  rw [hm] at hmemory
  have hm : m.lastIndex = 2 := some.inj hmemory
  omega

end LogStorage

/-! ## Reads with a size limit -/

namespace RaftWalStorage

end RaftWalStorage

namespace LogStorage

end LogStorage

end ChronikStream.Raft
