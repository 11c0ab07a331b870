import ChronikStream.Wal.Truncate

/-!
# The scan of a segment file

`scanSegment` is the loop of `read_segment_from` (`segment_index.rs`) from byte 0; that the source
reads in chunks changes nothing, since a record depends only on its own bytes. `FoundAt data p l`
says that the scan locates a record at `p`. Bytes behind a file that is read to its end
(`ReadToEnd`) are scanned like a file of their own.
-/

namespace ChronikStream

open Bytes List

/-- The records of a file with their positions, and the position the scan stops at. The fuel bounds
the number of records. -/
def scanFrom : Nat → Nat → List UInt8 → List (Nat × WalRecord) × Nat
  | 0, pos, _ => ([], pos)
  | fuel + 1, pos, data =>
    match parseRecord data with
    | .record l =>
      let rest := scanFrom fuel (pos + l.totalLen) (data.drop l.totalLen)
      (((l.toRecord data).map (pos, ·)).toList ++ rest.1, rest.2)
    | .incomplete | .invalid => ([], pos)

def scanSegment (data : List UInt8) : List (Nat × WalRecord) :=
  (scanFrom data.length 0 data).1

/-- The scan of the file gets to its end. -/
def ReadToEnd (data : List UInt8) : Prop :=
  (scanFrom data.length 0 data).2 = data.length
deriving Decidable

/-- The scan of `data` locates the record `l` at position `p`. -/
inductive FoundAt : List UInt8 → Nat → RecordLayout → Prop where
  | head {data : List UInt8} {l : RecordLayout} : parseRecord data = .record l → FoundAt data 0 l
  | tail {data : List UInt8} {l l' : RecordLayout} {p : Nat} : parseRecord data = .record l →
      FoundAt (data.drop l.totalLen) p l' → FoundAt data (l.totalLen + p) l'

/-- A file made of whole records. -/
inductive WholeRecords : List UInt8 → Prop where
  | nil : WholeRecords []
  | cons {data : List UInt8} {l : RecordLayout} : parseRecord data = .record l →
      WholeRecords (data.drop l.totalLen) → WholeRecords data

section

/-! ## The scan and what it finds -/

/-- With enough fuel the scan lists every located record it can materialise. -/
theorem FoundAt.mem_scanFrom (h : FoundAt data p l) (hr : l.toRecord (data.drop p) = some r)
    (hfuel : data.length ≤ fuel) (pos : Nat) : (pos + p, r) ∈ (scanFrom fuel pos data).1 := by
  induction h generalizing fuel pos with
  | head hparse =>
    obtain ⟨h42, hlen, -⟩ := parseRecord_bounds hparse
    obtain ⟨fuel, rfl⟩ := Nat.exists_eq_add_one.2 (by omega : 0 < fuel)
    rw [scanFrom, hparse]
    rw [drop_zero] at hr
    simp [hr]
  | @tail data l _ p hparse _ ih =>
    obtain ⟨h42, hlen, -⟩ := parseRecord_bounds hparse
    obtain ⟨fuel, rfl⟩ := Nat.exists_eq_add_one.2 (by omega : 0 < fuel)
    rw [← drop_drop] at hr
    have hrest : (data.drop l.totalLen).length ≤ fuel := by
      rw [length_drop]
      omega
    have hmem := ih hr hrest (pos + l.totalLen)
    rw [add_assoc] at hmem
    rw [scanFrom, hparse]
    exact mem_append_right _ hmem

theorem wholeRecords_of_scanFrom (h : (scanFrom fuel pos data).2 = pos + data.length) :
    WholeRecords data := by
  have hstuck : ∀ d : List UInt8, pos = pos + d.length → WholeRecords d := by
    intro d hd
    rw [length_eq_zero_iff.1 (by omega : d.length = 0)]
    exact .nil
  induction fuel generalizing pos data with
  | zero => exact hstuck data h
  | succ fuel ih =>
    rw [scanFrom] at h
    cases hparse : parseRecord data with
    | record l =>
      obtain ⟨-, hlen, -⟩ := parseRecord_bounds hparse
      rw [hparse] at h
      have hrest : (scanFrom fuel (pos + l.totalLen) (data.drop l.totalLen)).2 =
          pos + l.totalLen + (data.drop l.totalLen).length := by
        rw [length_drop]
        dsimp only at h
        omega
      exact .cons hparse (ih hrest fun d hd => hstuck d (by omega))
    | incomplete | invalid =>
      rw [hparse] at h
      exact hstuck data h

/-! ## Appended and cut files -/

theorem FoundAt.append (h : FoundAt data p l) (rest : List UInt8) : FoundAt (data ++ rest) p l := by
  induction h with
  | head hparse => exact .head (parseRecord_append hparse rest)
  | tail hparse _ ih =>
    obtain ⟨-, hlen, -⟩ := parseRecord_bounds hparse
    refine .tail (parseRecord_append hparse rest) ?_
    rwa [drop_append_of_le_length hlen]

theorem FoundAt.take (h : FoundAt data p l) (hk : p + l.totalLen ≤ k) :
    FoundAt (data.take k) p l := by
  induction h generalizing k with
  | head hparse => exact .head (parseRecord_take hparse (by omega))
  | tail hparse _ ih =>
    refine .tail (parseRecord_take hparse (by omega)) ?_
    rw [drop_take]
    exact ih (by omega)

theorem WholeRecords.foundAt_append (h : WholeRecords data) (hfound : FoundAt rest p l) :
    FoundAt (data ++ rest) (data.length + p) l := by
  induction h with
  | nil => simpa using hfound
  | @cons data l hparse _ ih =>
    obtain ⟨-, hlen, -⟩ := parseRecord_bounds hparse
    have hpos : data.length + p = l.totalLen + ((data.drop l.totalLen).length + p) := by
      rw [length_drop]
      omega
    rw [hpos]
    refine .tail (parseRecord_append hparse rest) ?_
    rwa [drop_append_of_le_length hlen]

end

end ChronikStream
