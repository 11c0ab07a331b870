import ChronikStream.Lib.Protobuf

/-!
# The Raft messages in the metadata WAL

`Entry`, `HardState` and `ConfState` with the field numbers of `eraftpb` and the proto3 rules that
prost follows. The fields 1, 2 and 3 are numbers in both, so `Entry` decodes every `HardState` the
storage writes (`isSome_decode_of_hardState`).
-/

namespace ChronikStream.Raft

open Protobuf Option UInt64

structure Entry where
  entryType : Int32
  term : UInt64
  index : UInt64
  data : List UInt8
  context : List UInt8
  syncLog : Bool
  deriving DecidableEq

structure HardState where
  term : UInt64
  vote : UInt64
  commit : UInt64
  deriving DecidableEq

structure ConfState where
  voters : List UInt64
  learners : List UInt64
  votersOutgoing : List UInt64
  learnersNext : List UInt64
  autoLeave : Bool
  deriving DecidableEq

/-! ## Entries -/

namespace Entry

def default : Entry := ⟨0, 0, 0, [], [], false⟩

/-- The number of an `i32` on the wire: its sign is extended to 64 bits. -/
def typeNumber (t : Int32) : Nat := t.toInt64.toUInt64.toNat

/-- The `i32` of a number on the wire. -/
def typeOfNumber (n : Nat) : Int32 := (ofNat n).toUInt32.toInt32

def fields (e : Entry) : List Field :=
  varintField 1 (typeNumber e.entryType) ++ varintField 2 e.term.toNat ++
    varintField 3 e.index.toNat ++ bytesField 4 e.data ++ varintField 5 e.syncLog.toNat ++
    bytesField 6 e.context

def encode (e : Entry) : List UInt8 := encodeFields e.fields

def merge (e : Entry) : Field → Option Entry
  | (1, .varint n) => some { e with entryType := typeOfNumber n }
  | (2, .varint n) => some { e with term := .ofNat n }
  | (3, .varint n) => some { e with index := .ofNat n }
  | (4, .bytes bs) => some { e with data := bs }
  | (5, .varint n) => some { e with syncLog := n != 0 }
  | (6, .bytes bs) => some { e with context := bs }
  | (number, _) => if number ≤ 6 then none else some e

def decode (bs : List UInt8) : Option Entry := decodeWith merge default bs

end Entry

/-! ## The other messages -/

namespace HardState

def default : HardState := ⟨0, 0, 0⟩

def fields (hs : HardState) : List Field :=
  varintField 1 hs.term.toNat ++ varintField 2 hs.vote.toNat ++ varintField 3 hs.commit.toNat

def merge (hs : HardState) : Field → Option HardState
  | (1, .varint n) => some { hs with term := .ofNat n }
  | (2, .varint n) => some { hs with vote := .ofNat n }
  | (3, .varint n) => some { hs with commit := .ofNat n }
  | (number, _) => if number ≤ 3 then none else some hs

def decode (bs : List UInt8) : Option HardState := decodeWith merge default bs

end HardState

namespace ConfState

def default : ConfState := ⟨[], [], [], [], false⟩

def fields (cs : ConfState) : List Field :=
  packedField 1 (cs.voters.map (·.toNat)) ++ packedField 2 (cs.learners.map (·.toNat)) ++
    packedField 3 (cs.votersOutgoing.map (·.toNat)) ++ packedField 4 (cs.learnersNext.map (·.toNat)) ++
    varintField 5 cs.autoLeave.toNat

def numbers : WireValue → Option (List UInt64)
  | .varint n => some [.ofNat n]
  | .bytes bs => (parsePacked bs.length bs).map (·.map .ofNat)
  | .fixed64 _ | .fixed32 _ => none

def merge (cs : ConfState) : Field → Option ConfState
  | (1, v) => (numbers v).map fun ns => { cs with voters := cs.voters ++ ns }
  | (2, v) => (numbers v).map fun ns => { cs with learners := cs.learners ++ ns }
  | (3, v) => (numbers v).map fun ns => { cs with votersOutgoing := cs.votersOutgoing ++ ns }
  | (4, v) => (numbers v).map fun ns => { cs with learnersNext := cs.learnersNext ++ ns }
  | (5, .varint n) => some { cs with autoLeave := n != 0 }
  | (number, _) => if number ≤ 5 then none else some cs

def decode (bs : List UInt8) : Option ConfState := decodeWith merge default bs

end ConfState

/-! ## Reading back an entry -/

namespace Entry

theorem typeOfNumber_typeNumber (t : Int32) : typeOfNumber (typeNumber t) = t := by
  rw [typeOfNumber, typeNumber, UInt64.ofNat_toNat]
  apply Int32.toBitVec.inj
  show BitVec.setWidth 32 (BitVec.signExtend 64 t.toBitVec) = t.toBitVec
  ext i hi
  grind

section
variable {e : Entry}

theorem proto3Field_fields : ∀ f ∈ e.fields, Proto3Field f := by
  have hsync : e.syncLog.toNat < 2 ^ 64 := lt_of_le_of_lt (Bool.toNat_le _) (by decide)
  simp only [fields, List.forall_mem_append]
  exact ⟨⟨⟨⟨⟨proto3Field_varintField (by decide) (toNat_lt _),
    proto3Field_varintField (by decide) (toNat_lt _)⟩,
    proto3Field_varintField (by decide) (toNat_lt _)⟩, proto3Field_bytesField (by decide)⟩,
    proto3Field_varintField (by decide) hsync⟩, proto3Field_bytesField (by decide)⟩

theorem decode_encode (hlen : e.encode.length < 2 ^ 64) : decode e.encode = some e := by
  rw [decode, encode, decodeWith_message proto3Field_fields hlen]
  obtain ⟨entryType, term, index, data, context, syncLog⟩ := e
  -- The fields are merged one after the other, each into what the ones before it gave.
  have h0 : default = ⟨typeOfNumber 0, 0, 0, [], [], false⟩ := rfl
  have h1 : ∀ n, (varintField 1 n).foldlM merge ⟨typeOfNumber 0, 0, 0, [], [], false⟩ =
      some ⟨typeOfNumber n, 0, 0, [], [], false⟩ := fun n =>
    foldlM_varintField (fun n => (⟨typeOfNumber n, 0, 0, [], [], false⟩ : Entry)) rfl
  have h2 : ∀ n, (varintField 2 n).foldlM merge ⟨entryType, 0, 0, [], [], false⟩ =
      some ⟨entryType, .ofNat n, 0, [], [], false⟩ := fun n =>
    foldlM_varintField (fun n => (⟨entryType, .ofNat n, 0, [], [], false⟩ : Entry)) rfl
  have h3 : ∀ n, (varintField 3 n).foldlM merge ⟨entryType, term, 0, [], [], false⟩ =
      some ⟨entryType, term, .ofNat n, [], [], false⟩ := fun n =>
    foldlM_varintField (fun n => (⟨entryType, term, .ofNat n, [], [], false⟩ : Entry)) rfl
  have h4 : (bytesField 4 data).foldlM merge ⟨entryType, term, index, [], [], false⟩ =
      some ⟨entryType, term, index, data, [], false⟩ :=
    foldlM_bytesField (fun bs => (⟨entryType, term, index, bs, [], false⟩ : Entry)) rfl
  have h5 : ∀ n, (varintField 5 n).foldlM merge ⟨entryType, term, index, data, [], false⟩ =
      some ⟨entryType, term, index, data, [], n != 0⟩ := fun n =>
    foldlM_varintField (fun n => (⟨entryType, term, index, data, [], n != 0⟩ : Entry)) rfl
  have h6 : (bytesField 6 context).foldlM merge ⟨entryType, term, index, data, [], syncLog⟩ =
      some ⟨entryType, term, index, data, context, syncLog⟩ :=
    foldlM_bytesField (fun bs => (⟨entryType, term, index, data, bs, syncLog⟩ : Entry)) rfl
  have hsync : (syncLog.toNat != 0) = syncLog := by cases syncLog <;> rfl
  simp only [fields, List.foldlM_append, h0, h1, typeOfNumber_typeNumber, h2, h3, h4, h5, h6, hsync,
    UInt64.ofNat_toNat, bind_eq_bind, bind_some]

end

end Entry

/-! ## A hard state is taken for an entry -/

/-- A field that is of the type `Entry` has for its number, if the number is one that `HardState`
does not have. -/
def EntryTyped : Field → Prop
  | (4, v) | (6, v) => ∃ bs, v = .bytes bs
  | (5, v) => ∃ n, v = .varint n
  | _ => True

section
variable {f : Field} {fs : List Field} {e : Entry} {hs hs' : HardState}

theorem isSome_merge_of_hardState (htyped : EntryTyped f) (h : hs.merge f = some hs') :
    (e.merge f).isSome := by
  obtain ⟨number, value⟩ := f
  match number, htyped, h with
  | 0, _, h => cases h
  | 1, _, h | 2, _, h | 3, _, h =>
    cases value with
    | varint n => rfl
    | fixed64 _ | bytes _ | fixed32 _ => cases h
  | 4, htyped, _ | 5, htyped, _ | 6, htyped, _ =>
    obtain ⟨_, rfl⟩ := htyped
    rfl
  | number + 7, _, _ =>
    rfl

theorem isSome_foldlM_of_hardState (htyped : ∀ f ∈ fs, EntryTyped f)
    (h : fs.foldlM HardState.merge hs = some hs') : (fs.foldlM Entry.merge e).isSome := by
  induction fs generalizing e hs with
  | nil => rfl
  | cons f fs ih =>
    rw [List.foldlM_cons] at h ⊢
    obtain ⟨hs₁, hf, hfs⟩ := bind_eq_some_iff.1 h
    obtain ⟨e₁, he⟩ := isSome_iff_exists.1
      (isSome_merge_of_hardState (e := e) (htyped f (.head _)) hf)
    rw [he]
    exact ih (fun x hx => htyped x (.tail _ hx)) hfs

end

/-- What the storage writes: the three kinds of messages share one stream, without a tag. -/
inductive Message where
  | entry (e : Entry)
  | hardState (hs : HardState)
  | confState (cs : ConfState)
  deriving DecidableEq

namespace Message

def fields : Message → List Field
  | .entry e => e.fields
  | .hardState hs => hs.fields
  | .confState cs => cs.fields

def encode (m : Message) : List UInt8 := encodeFields m.fields

theorem proto3Field_fields (m : Message) : ∀ f ∈ m.fields, Proto3Field f := by
  cases m with
  | entry e => exact Entry.proto3Field_fields
  | hardState hs =>
    simp only [fields, HardState.fields, List.forall_mem_append]
    exact ⟨⟨proto3Field_varintField (by decide) (toNat_lt _),
      proto3Field_varintField (by decide) (toNat_lt _)⟩,
      proto3Field_varintField (by decide) (toNat_lt _)⟩
  | confState cs =>
    have hleave : cs.autoLeave.toNat < 2 ^ 64 := lt_of_le_of_lt (Bool.toNat_le _) (by decide)
    simp only [fields, ConfState.fields, List.forall_mem_append]
    exact ⟨⟨⟨⟨proto3Field_bytesField (by decide), proto3Field_bytesField (by decide)⟩,
      proto3Field_bytesField (by decide)⟩, proto3Field_bytesField (by decide)⟩,
      proto3Field_varintField (by decide) hleave⟩

theorem entryTyped_fields (m : Message) : ∀ f ∈ m.fields, EntryTyped f := by
  cases m with
  | entry e =>
    simp only [fields, Entry.fields, List.forall_mem_append]
    refine ⟨⟨⟨⟨⟨?_, ?_⟩, ?_⟩, ?_⟩, ?_⟩, ?_⟩ <;> intro f hf
    · rw [mem_varintField hf]; trivial
    · rw [mem_varintField hf]; trivial
    · rw [mem_varintField hf]; trivial
    · rw [mem_bytesField hf]; exact ⟨_, rfl⟩
    · rw [mem_varintField hf]; exact ⟨_, rfl⟩
    · rw [mem_bytesField hf]; exact ⟨_, rfl⟩
  | hardState hs =>
    simp only [fields, HardState.fields, List.forall_mem_append]
    refine ⟨⟨?_, ?_⟩, ?_⟩ <;> intro f hf <;> rw [mem_varintField hf] <;> trivial
  | confState cs =>
    simp only [fields, ConfState.fields, List.forall_mem_append]
    refine ⟨⟨⟨⟨?_, ?_⟩, ?_⟩, ?_⟩, ?_⟩ <;> intro f hf
    · rw [mem_bytesField hf]; trivial
    · rw [mem_bytesField hf]; trivial
    · rw [mem_bytesField hf]; trivial
    · rw [mem_bytesField hf]; exact ⟨_, rfl⟩
    · rw [mem_varintField hf]; exact ⟨_, rfl⟩

theorem isSome_decode_of_hardState {m : Message} (hlen : m.encode.length < 2 ^ 64)
    (h : HardState.decode m.encode = some hs) : (Entry.decode m.encode).isSome := by
  rw [encode, HardState.decode, decodeWith_message m.proto3Field_fields hlen] at h
  rw [encode, Entry.decode, decodeWith_message m.proto3Field_fields hlen]
  exact isSome_foldlM_of_hardState m.entryTyped_fields h

end Message

end ChronikStream.Raft
