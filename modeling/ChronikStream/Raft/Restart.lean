import ChronikStream.Raft.WalStorage

/-!
# Raft state across a restart

`recover` tries `Entry` first, and a hard state is an entry to it, so no hard state is ever
recovered; `initialize_wal_storage` then takes the storage for a new one and clears the log
(`initializeWalStorage_reset`).
-/

namespace ChronikStream.Raft

/-- A call that wrote to the WAL and returned `Ok`. -/
inductive RaftWrite where
  | appendEntries (entries : List Entry)
  | persistHardState (hs : HardState)
  | persistConfState (cs : ConfState)
  deriving DecidableEq

namespace RaftWrite

def messages : RaftWrite → List Message
  | .appendEntries entries => entries.map .entry
  | .persistHardState hs => [.hardState hs]
  | .persistConfState cs => [.confState cs]

def hardStateAfter (hs : HardState) : RaftWrite → HardState
  | .persistHardState hs' => hs'
  | .appendEntries _ | .persistConfState _ => hs

/-- The log after a call: entries replace everything from their first index on. -/
def logAfter (log : List Entry) : RaftWrite → List Entry
  | .appendEntries (e :: es) => log.filter (·.index < e.index) ++ e :: es
  | .appendEntries [] | .persistHardState _ | .persistConfState _ => log

end RaftWrite

def writtenMessages (history : List RaftWrite) : List Message := history.flatMap RaftWrite.messages

def persistedHardState (history : List RaftWrite) : HardState :=
  history.foldl RaftWrite.hardStateAfter .default

def persistedLog (history : List RaftWrite) : List Entry := history.foldl RaftWrite.logAfter []

section
variable {crc : List UInt8 → UInt32} {history : List RaftWrite} {files : List (List Message)}

theorem Recovered.hardState_add {m : Message} (h : m.FitsRecord) (acc : Recovered) :
    (acc.add m.encode).hardState = acc.hardState := by
  have hlen : m.encode.length < 2 ^ 64 := by
    have : 45 + m.encode.length < 2 ^ 32 := h
    omega
  rw [Recovered.add]
  split
  case isTrue => rfl
  case isFalse =>
  split
  case h_1 e _ => split <;> rfl
  case h_2 hentry =>
  split
  case h_1 hs hhard =>
    -- What `HardState` decodes, `Entry` has decoded before.
    have hsome := Message.isSome_decode_of_hardState hlen hhard
    rw [hentry] at hsome
    cases hsome
  case h_2 =>
    split
    case h_1 => split <;> rfl
    case h_2 => rfl

theorem Recovered.hardState_foldl_add {ms : List Message} (h : ∀ m ∈ ms, m.FitsRecord)
    (acc : Recovered) : ((ms.map Message.encode).foldl Recovered.add acc).hardState = acc.hardState := by
  induction ms generalizing acc with
  | nil => rfl
  | cons m ms ih =>
    rw [List.map_cons, List.foldl_cons, ih fun x hx => h x (.tail _ hx),
      Recovered.hardState_add (h m (.head _))]

theorem hardState_parseWalRecords (h : ∀ ms ∈ files, ∀ m ∈ ms, m.FitsRecord) :
    (parseWalRecords (scanWalFiles (files.map (walFile crc)))).hardState = none := by
  have hscan : ∀ ms ∈ scanWalFiles files, ∀ m ∈ ms, m.FitsRecord := fun ms hms =>
    h ms ((perm_scanWalFiles files).mem_iff.1 hms)
  rw [parseWalRecords, scanWalFiles_map, messagesOfFiles_walFile hscan]
  refine Recovered.hardState_foldl_add (fun m hm => ?_) _
  obtain ⟨ms, hms, hm⟩ := List.mem_flatten.1 hm
  exact hscan ms hms m hm

open RaftWalStorage List

theorem hardState_restoreLog (s : RaftWalStorage) (snapshotIndex : Nat) (entries : List Entry) :
    (s.restoreLog snapshotIndex entries).hardState = s.hardState := by
  cases entries with
  | nil =>
    rw [restoreLog]
    split <;> rfl
  | cons _ _ => rfl

theorem hardState_recover (snapshot : Option SnapshotMetadata)
    (h : ∀ ms ∈ files, ∀ m ∈ ms, m.FitsRecord) :
    (new.recover snapshot (files.map (walFile crc))).hardState = .default := by
  rw [recover]
  split
  case isTrue => rfl
  case isFalse =>
    rw [restoreRaftState, hardState_parseWalRecords h, hardState_restoreLog]
    rfl

/-- Whatever was written, a restart gives a storage with the default hard state and no entries. -/
theorem initializeWalStorage_reset (crc : List UInt8 → UInt32)
    (snapshot : Option SnapshotMetadata) (allNodes : List UInt64)
    (h : ∀ ms ∈ files, ∀ m ∈ ms, m.FitsRecord) :
    (initializeWalStorage snapshot (files.map (walFile crc)) allNodes).hardState = .default ∧
      (initializeWalStorage snapshot (files.map (walFile crc)) allNodes).entries = [] := by
  have hstate : (new.recover snapshot (files.map (walFile crc))).hasRecoveredState = false := by
    rw [hasRecoveredState, hardState_recover snapshot h]
    rfl
  rw [initializeWalStorage, if_pos (.inl (by rw [hstate]; exact Bool.false_ne_true))]
  exact ⟨rfl, rfl⟩

theorem fitsRecord_of_flatten (hfits : ∀ m ∈ writtenMessages history, m.FitsRecord)
    (hfiles : files.flatten = writtenMessages history) : ∀ ms ∈ files, ∀ m ∈ ms, m.FitsRecord :=
  fun ms hms m hm => hfits m (hfiles ▸ mem_flatten.2 ⟨ms, hms, hm⟩)

theorem persistedLog_eq_nil_iff : persistedLog history = [] ↔
    ∀ entries, .appendEntries entries ∈ history → entries = [] := by
  induction history using reverseRecOn with
  | nil => simp [persistedLog]
  | append_singleton history w ih =>
    have hlog : persistedLog (history ++ [w]) = w.logAfter (persistedLog history) := by
      rw [persistedLog, foldl_append]
      rfl
    rw [hlog]
    simp only [mem_append, List.mem_singleton]
    cases w with
    | appendEntries entries =>
      cases entries with
      | nil =>
        rw [RaftWrite.logAfter, ih]
        refine forall_congr' fun entries => ⟨fun h hmem => ?_, fun h hmem => h (.inl hmem)⟩
        rcases hmem with hmem | hmem
        · exact h hmem
        · exact RaftWrite.appendEntries.inj hmem
      | cons e es =>
        refine ⟨fun h => ?_, fun h => absurd (h (e :: es) (.inr rfl)) (cons_ne_nil _ _)⟩
        exact absurd (append_eq_nil_iff.1 h).2 (cons_ne_nil _ _)
    | persistHardState _ | persistConfState _ =>
      rw [RaftWrite.logAfter, ih]
      refine forall_congr' fun entries => ⟨fun h hmem => ?_, fun h hmem => h (.inl hmem)⟩
      rcases hmem with hmem | hmem
      · exact h hmem
      · cases hmem

/-- A restart preserves the hard state and the log exactly where no entry was persisted and the last
hard state is the default one. -/
theorem restart_preserves_iff (crc : List UInt8 → UInt32) (allNodes : List UInt64)
    (hfits : ∀ m ∈ writtenMessages history, m.FitsRecord)
    (hfiles : files.flatten = writtenMessages history) :
    ((initializeWalStorage none (files.map (walFile crc)) allNodes).hardState =
        persistedHardState history ∧
      (initializeWalStorage none (files.map (walFile crc)) allNodes).entries = persistedLog history) ↔
      persistedHardState history = .default ∧
        ∀ entries, .appendEntries entries ∈ history → entries = [] := by
  obtain ⟨hhard, hentries⟩ := initializeWalStorage_reset crc none allNodes
    (fitsRecord_of_flatten hfits hfiles)
  rw [hhard, hentries, ← persistedLog_eq_nil_iff]
  exact and_congr eq_comm eq_comm

end

/-! ## A vote that is forgotten -/

namespace RestartFixture

def voters : ConfState := { ConfState.default with voters := [1, 2, 3] }

def entry (term index : UInt64) : Entry := { Entry.default with term := term, index := index }

/-- A node with three voters that voted for node 2 in term 5 and persisted one entry. -/
def voted : List RaftWrite :=
  [.persistConfState voters, .appendEntries [entry 5 1], .persistHardState ⟨5, 2, 1⟩]

/-- A node that has persisted its voters and the state of a new node. -/
def idle : List RaftWrite := [.persistConfState voters, .appendEntries [], .persistHardState .default]

end RestartFixture

section
open RestartFixture RaftWalStorage

/-- After a restart the node does not know its vote, its term or its entry. -/
theorem restart_forgets_vote :
    ¬ ∀ (crc : List UInt8 → UInt32) (allNodes : List UInt64) (history : List RaftWrite)
      (files : List (List Message)), (∀ m ∈ writtenMessages history, m.FitsRecord) →
      files.flatten = writtenMessages history →
        (initializeWalStorage none (files.map (walFile crc)) allNodes).hardState =
            persistedHardState history ∧
          (initializeWalStorage none (files.map (walFile crc)) allNodes).entries =
            persistedLog history := by
  intro h
  have hfits : ∀ m ∈ writtenMessages voted, m.FitsRecord := by decide +kernel
  have hhard := (h (fun _ => 0) [1, 2, 3] voted [writtenMessages voted] hfits (List.append_nil _)).1
  rw [(initializeWalStorage_reset _ none _ (fitsRecord_of_flatten hfits (List.append_nil _))).1] at hhard
  exact absurd hhard (by decide)

theorem restart_preserves_idle :
    (initializeWalStorage none ([writtenMessages idle].map (walFile fun _ => 0)) [1, 2, 3]).hardState =
        persistedHardState idle ∧
      (initializeWalStorage none ([writtenMessages idle].map (walFile fun _ => 0)) [1, 2, 3]).entries =
        persistedLog idle := by
  refine (restart_preserves_iff (fun _ => 0) [1, 2, 3] (by decide +kernel) (List.append_nil _)).2
    ⟨rfl, fun entries h => ?_⟩
  rcases List.mem_cons.1 h with h | h
  · cases h
  rcases List.mem_cons.1 h with h | h
  · exact RaftWrite.appendEntries.inj h
  · cases List.mem_singleton.1 h

end

end ChronikStream.Raft
