import ChronikStream.Lib.OffsetRange
import ChronikStream.Wal.Record

/-!
# Suffix truncation of a partition's segment files

The byte scan of `chronik-wal/src/truncate.rs` and the surgery of `truncate_partition_files`, which
looks only at the first record of each file, at the file that straddles the target and at whether a
file is empty. `truncateFiles` is written over any kind of file with these views: byte strings and
lists of records, which agree on well-formed records (`truncatePartitionFiles_encode`).
-/

namespace ChronikStream

open Bytes OffsetRange List Option

instance : OffsetRange WalRecord where
  base := WalRecord.baseOffset
  last := WalRecord.lastOffset

/-! ## The verdict about one file -/

structure RecordSpan where
  totalSize : Nat
  baseOffset : Int
  lastOffset : Int
  deriving DecidableEq

/-- The size of the record a header starts, from its length field alone. -/
def declaredRecordSize (header : List UInt8) : Option Nat :=
  if header.length < 12 then none
  else if ofLe (slice header 0 2) ≠ walMagic ∨ ofLe (slice header 2 1) ≠ walVersionV2 then none
  else if ofLe (slice header 4 4) = 0 then none
  else some (12 + ofLe (slice header 4 4))

/-- The framing of one V2 record. Unlike `parseRecord`, this checks that the trailer lands where
`length` says. -/
def parseRecordSpan (data : List UInt8) : Option RecordSpan :=
  (declaredRecordSize data).bind fun totalSize =>
    let topicLen := ofLe (slice data 12 2)
    let trailer := 22 + topicLen + ofLe (slice data (18 + topicLen) 4)
    if data.length < totalSize ∨ data.length < 14 ∨ data.length < 22 + topicLen ∨
        trailer + 20 ≠ totalSize then none
    else some ⟨totalSize, ofLeInt (slice data trailer 8), ofLeInt (slice data (trailer + 8) 8)⟩

inductive SegmentVerdict where
  | empty
  | keepWhole (lastOffset : Int)
  | deleteWhole
  | cut (keepBytes : Nat) (lastOffset : Int)
  deriving DecidableEq

/-- The verdict where the readable part of the file ends below the target. -/
def SegmentVerdict.atEnd : Option Int → SegmentVerdict
  | none => .empty
  | some lastOffset => .keepWhole lastOffset

/-- The verdict at the first record that reaches the target, `cursor` bytes into the file. -/
def SegmentVerdict.atReach (cursor : Nat) : Option Int → SegmentVerdict
  | none => .deleteWhole
  | some lastOffset => .cut cursor lastOffset

/-- The scan for the first record that reaches the target, with `lastKept` the last offset of the
record before. -/
def planFrom (target : Int) : Nat → Nat → Option Int → List UInt8 → SegmentVerdict
  | 0, _, lastKept, _ => .atEnd lastKept
  | fuel + 1, cursor, lastKept, data =>
    match parseRecordSpan data with
    | none => .atEnd lastKept
    | some span =>
      if target ≤ span.lastOffset then .atReach cursor lastKept
      else planFrom target fuel (cursor + span.totalSize) (some span.lastOffset)
        (data.drop span.totalSize)

/-- What a truncation to `target` does to one segment file. -/
def planSegmentTruncation (data : List UInt8) (target : Int) : SegmentVerdict :=
  planFrom target (data.length + 1) 0 none data

/-- The file after the verdict, `none` where it is removed. -/
def SegmentVerdict.apply : SegmentVerdict → List UInt8 → Option (List UInt8)
  | .empty, data => some data
  | .keepWhole _, data => some data
  | .deleteWhole, _ => none
  | .cut keepBytes _, data => some (data.take keepBytes)

/-- The base offset of a segment's first record, from only the bytes of that record. -/
def firstRecordOffset (data : List UInt8) : Option Int :=
  (declaredRecordSize data).bind fun size =>
    if data.length < size then none
    else (parseRecordSpan (data.take size)).map RecordSpan.baseOffset

/-! ## The surgery on all files -/

section
variable {φ : Type*} (first : φ → Option Int) (cut : φ → Option φ) (isEmpty : φ → Bool)

/-- The last file whose first record starts below the target, before the first one whose does not.
Files without a record are skipped. -/
def straddlerFrom (target : Int) : Nat → Option Nat → List φ → Option Nat
  | _, found, [] => found
  | i, found, file :: files =>
    match first file with
    | none => straddlerFrom target (i + 1) found files
    | some base => if base < target then straddlerFrom target (i + 1) (some i) files else found

/-- The files before the straddler, the straddler cut, and behind it only the empty ones. -/
def truncateFiles (target : Int) (files : List φ) : List φ :=
  match straddlerFrom first target 0 none files with
  | none => files.filter isEmpty
  | some i => files.take i ++ ((files[i]?.bind cut).toList ++ (files.drop (i + 1)).filter isEmpty)

end

def truncatePartitionFiles (target : Int) (files : List (List UInt8)) : List (List UInt8) :=
  truncateFiles firstRecordOffset (fun data => (planSegmentTruncation data target).apply data)
    isEmpty target files

section
variable {ρ : Type*} [OffsetRange ρ]

/-- Nothing from the first record on that reaches the target, and no file where that leaves none. -/
def cutSegment (target : Int) (seg : List ρ) : Option (List ρ) :=
  if seg ≠ [] ∧ seg.takeWhile (last · < target) = [] then none
  else some (seg.takeWhile (last · < target))

def truncateSegments (target : Int) (segs : List (List ρ)) : List (List ρ) :=
  truncateFiles (·.head?.map base) (cutSegment target) isEmpty target segs

end

/-! ## What the surgery keeps -/

section
variable {ρ : Type*} [OffsetRange ρ]

/-- The file of the last record before the target's place, or nothing; the records behind it start
at or above the target. -/
theorem straddlerFrom_spec (target : Int) (segs : List (List ρ)) (i : Nat) (found : Option Nat) :
    (straddlerFrom (·.head?.map base) target i found segs = found ∧
        ∀ r ∈ segs.flatten.head?, target ≤ base r) ∨
      ∃ pre seg post, segs = pre ++ seg :: post ∧
        straddlerFrom (·.head?.map base) target i found segs = some (i + pre.length) ∧
        (∃ r ∈ seg.head?, base r < target) ∧ ∀ r ∈ post.flatten.head?, target ≤ base r := by
  induction segs generalizing i found with
  | nil => exact .inl ⟨rfl, fun _ h => nomatch h⟩
  | cons seg segs ih =>
    cases seg with
    | nil =>
      rcases ih (i + 1) found with ⟨heq, hhead⟩ | ⟨pre, seg, post, rfl, heq, hseg, hpost⟩
      · exact .inl ⟨heq, hhead⟩
      refine .inr ⟨[] :: pre, seg, post, rfl, ?_, hseg, hpost⟩
      rw [straddlerFrom, head?_nil, map_none]
      simp only [heq, length_cons, some.injEq]
      omega
    | cons r seg =>
      rw [straddlerFrom, head?_cons, map_some]
      dsimp only
      split
      case isTrue hlt =>
        rcases ih (i + 1) (some i) with ⟨heq, hhead⟩ | ⟨pre, seg', post, rfl, heq, hseg, hpost⟩
        · exact .inr ⟨[], r :: seg, segs, rfl, heq, ⟨r, rfl, hlt⟩, hhead⟩
        refine .inr ⟨(r :: seg) :: pre, seg', post, rfl, ?_, hseg, hpost⟩
        rw [heq, length_cons, some.injEq]
        omega
      case isFalse hge =>
        refine .inl ⟨rfl, fun a ha => ?_⟩
        cases ha
        omega

/-- Everything goes, or the files before the straddler and its records before the first one that
reaches the target stay. -/
theorem truncateSegments_spec (target : Int) (segs : List (List ρ)) :
    ((truncateSegments target segs).flatten = [] ∧ ∀ r ∈ segs.flatten.head?, target ≤ base r) ∨
      ∃ pre seg post, segs = pre ++ seg :: post ∧
        (truncateSegments target segs).flatten =
          pre.flatten ++ seg.takeWhile (last · < target) ∧
        (∃ r ∈ seg.head?, base r < target) ∧ ∀ r ∈ post.flatten.head?, target ≤ base r := by
  have hempty : ∀ l : List (List ρ), (l.filter isEmpty).flatten = [] := by
    intro l
    rw [flatten_eq_nil_iff]
    intro seg hseg
    simpa using (mem_filter.1 hseg).2
  rcases straddlerFrom_spec target segs 0 none with ⟨heq, hhead⟩ | ⟨pre, seg, post, rfl, heq, h⟩
  · refine .inl ⟨?_, hhead⟩
    rw [truncateSegments, truncateFiles, heq]
    exact hempty segs
  refine .inr ⟨pre, seg, post, rfl, ?_, h⟩
  have hcut : ((cutSegment target seg).toList).flatten = seg.takeWhile (last · < target) := by
    rw [cutSegment]
    split
    case isTrue hnone => rw [hnone.2]; rfl
    case isFalse => exact append_nil _
  rw [truncateSegments, truncateFiles, heq, zero_add]
  simp only [take_left, getElem?_append_right (le_refl _), Nat.sub_self,
    getElem?_cons_zero, bind_some, flatten_append, hempty, hcut, append_nil]

theorem prefix_truncateSegments (target : Int) (segs : List (List ρ)) :
    (truncateSegments target segs).flatten <+: segs.flatten := by
  rcases truncateSegments_spec target segs with ⟨hnil, -⟩ | ⟨pre, seg, post, rfl, heq, -⟩
  · rw [hnil]
    exact nil_prefix
  rw [heq, flatten_append]
  exact (prefix_append_right_inj _).2
    (( takeWhile_prefix _).trans (prefix_append _ _))

/-- In a log in ascending order no record that reaches the target survives. -/
theorem last_lt_of_mem_truncateSegments {target : Int} {segs : List (List ρ)}
    (h : Ascending segs.flatten) (hr : r ∈ (truncateSegments target segs).flatten) :
    last r < target := by
  rcases truncateSegments_spec target segs with
    ⟨hnil, -⟩ | ⟨pre, seg, post, rfl, heq, ⟨s, hs, hlt⟩, -⟩
  · rw [hnil] at hr
    cases hr
  rw [heq, mem_append] at hr
  rcases hr with hr | hr
  · rw [flatten_append, Ascending, pairwise_append] at h
    have hsmem : s ∈ seg := mem_of_mem_head? hs
    have := h.2.2 r hr s (mem_append_left _ hsmem)
    omega
  · simpa using mem_takeWhile_imp hr

/-- A contiguous log loses exactly the records from the first one on that reaches the target. -/
theorem flatten_truncateSegments {o : Int} (target : Int) {segs : List (List ρ)}
    (h : ContiguousFrom o segs.flatten) :
    (truncateSegments target segs).flatten = segs.flatten.takeWhile (last · < target) := by
  have hnil : ∀ rs : List ρ, (∀ r ∈ rs.head?, target ≤ base r) → (∀ r ∈ rs, base r ≤ last r) →
      rs.takeWhile (last · < target) = [] := by
    intro rs hhead hne
    cases rs with
    | nil => rfl
    | cons r rs =>
    have := hhead r rfl
    have := hne r (.head _)
    rw [takeWhile_cons, if_neg (by simp; omega)]
  have hne : ∀ r ∈ segs.flatten, base r ≤ last r := fun r hr => (h.bounds hr).2.1
  rcases truncateSegments_spec target segs with
    ⟨heq, hhead⟩ | ⟨pre, seg, post, rfl, heq, ⟨s, hs, hlt⟩, hpost⟩
  · rw [heq, hnil _ hhead hne]
  rw [flatten_append, flatten_cons] at h hne ⊢
  have hpre : ∀ r ∈ pre.flatten, last r < target := by
    intro r hr
    have hsmem : s ∈ seg := mem_of_mem_head? hs
    have := (pairwise_append.1 h.ascending).2.2 r hr s (mem_append_left _ hsmem)
    omega
  have hpostNil : post.flatten.takeWhile (last · < target) = [] :=
    hnil _ hpost fun r hr => hne r (mem_append_right _ (mem_append_right _ hr))
  rw [heq, takeWhile_append_of_pos (by simpa using hpre), takeWhile_append, hpostNil, append_nil]
  split
  case isTrue hlen => rw [( takeWhile_prefix _).eq_of_length hlen]
  case isFalse => rfl

end

/-! ## Files of bytes and files of records -/

/-- The bytes of a file that holds these records and nothing else. -/
def encodeSegment (rs : List WalRecord) : List UInt8 :=
  rs.flatMap WalRecord.toBytes

theorem length_le_length_encodeSegment (rs : List WalRecord) :
    rs.length ≤ (encodeSegment rs).length := by
  induction rs with
  | nil => exact Nat.zero_le _
  | cons r rs ih =>
    have := r.length_toBytes
    rw [encodeSegment, flatMap_cons, length_append, length_cons]
    rw [encodeSegment] at ih
    omega

section
variable {r : WalRecord} {target : Int} (rest : List UInt8)

/-- Where the length field agrees with the inner ones, the scan sees what they say. -/
theorem parseRecordSpan_eq {d : List UInt8} (h : declaredRecordSize d = some (layoutAt d).totalLen)
    (hlen : (layoutAt d).totalLen ≤ d.length) : parseRecordSpan d =
      some ⟨(layoutAt d).totalLen, (layoutAt d).baseOffset, (layoutAt d).lastOffset⟩ := by
  have h18 : 18 + ofLe (slice d 12 2) = 14 + ofLe (slice d 12 2) + 4 := by omega
  have h22 : 22 + ofLe (slice d 12 2) = 14 + ofLe (slice d 12 2) + 8 := by omega
  rw [parseRecordSpan, h]
  dsimp only [layoutAt] at hlen ⊢
  rw [h18, h22]
  exact if_neg (by omega)

section
variable (h : r.WellFormed)
include h

theorem WalRecord.WellFormed.declaredRecordSize_toBytes :
    declaredRecordSize (r.toBytes ++ rest) = some r.toBytes.length := by
  obtain ⟨hmagic, hversion⟩ := r.header_toBytes rest
  have hlength : ofLe (slice (r.toBytes ++ rest) 4 4) = r.length :=
    congrArg RecordLayout.length (h.layoutAt_toBytes rest)
  have hlen := r.length_toBytes
  have heq := h.length_eq
  rw [declaredRecordSize, if_neg (by rw [length_append]; omega), hmagic, hversion,
    if_neg (by decide), if_neg (by omega), some.injEq]
  omega

theorem WalRecord.WellFormed.parseRecordSpan_toBytes :
    parseRecordSpan (r.toBytes ++ rest) = some ⟨r.toBytes.length, r.baseOffset, r.lastOffset⟩ := by
  have hlayout := h.layoutAt_toBytes rest
  have htotal : (layoutAt (r.toBytes ++ rest)).totalLen = r.toBytes.length := by
    rw [hlayout, r.layout_totalLen]
  have hspan := parseRecordSpan_eq (htotal ▸ h.declaredRecordSize_toBytes rest)
    (by rw [htotal, length_append]; exact Nat.le_add_right _ _)
  rw [hlayout, r.layout_totalLen] at hspan
  exact hspan

theorem WalRecord.WellFormed.planFrom_of_reach (hreach : target ≤ last r)
    (fuel cursor : Nat) (lastKept : Option Int) :
    planFrom target (fuel + 1) cursor lastKept (r.toBytes ++ rest) = .atReach cursor lastKept := by
  rw [planFrom, h.parseRecordSpan_toBytes]
  exact if_pos hreach

theorem WalRecord.WellFormed.planFrom_of_lt (hlt : last r < target)
    (fuel cursor : Nat) (lastKept : Option Int) :
    planFrom target (fuel + 1) cursor lastKept (r.toBytes ++ rest) =
      planFrom target fuel (cursor + r.toBytes.length) (some (last r)) rest := by
  have hlt : ¬ target ≤ r.lastOffset := not_le.2 hlt
  rw [planFrom, h.parseRecordSpan_toBytes]
  dsimp only
  rw [if_neg hlt, drop_left]
  rfl

end

end

section
variable {rs : List WalRecord} {torn : List UInt8}

theorem exists_parseRecord_of_span
    (h : parseRecordSpan data = some s) : ∃ l, parseRecord data = .record l := by
  obtain ⟨size, hsize, hspan⟩ := bind_eq_some_iff.1 h
  rw [declaredRecordSize] at hsize
  split at hsize
  · cases hsize
  split at hsize
  · cases hsize
  rename_i hmagic
  split at hsize
  · cases hsize
  rename_i hlength
  obtain ⟨hbounds, -⟩ := ite_none_left_eq_some.1 hspan
  have hcanonical : 14 + ofLe (slice data 12 2) + 4 = 18 + ofLe (slice data 12 2) := by omega
  rw [parseRecord, if_neg (by omega), if_neg (by simp [hmagic, hlength])]
  dsimp only
  rw [hcanonical, if_neg (by omega), if_neg (by omega)]
  exact ⟨_, rfl⟩

theorem parseRecordSpan_eq_none (h : ∀ l, parseRecord torn ≠ .record l) :
    parseRecordSpan torn = none := by
  cases hspan : parseRecordSpan torn with
  | none => rfl
  | some span =>
    obtain ⟨l, hl⟩ := exists_parseRecord_of_span hspan
    exact absurd hl (h l)

/-- Bytes at which no record starts have no first record: one that fits into them starts there. -/
theorem firstRecordOffset_eq_none (h : ∀ l, parseRecord torn ≠ .record l) :
    firstRecordOffset torn = none := by
  rw [firstRecordOffset, bind_eq_none_iff]
  intro size _
  split
  case isTrue => rfl
  case isFalse hlen =>
  rw [map_eq_none_iff]
  refine parseRecordSpan_eq_none fun l hl => h l ?_
  obtain ⟨-, hle, -⟩ := parseRecord_bounds hl
  refine parseRecord_eq_of_take_eq hl (le_refl _) hle ?_
  rw [length_take] at hle
  rw [take_take, min_eq_left (by omega)]

theorem firstRecordOffset_append (h : ∀ r ∈ rs, r.WellFormed)
    (htorn : ∀ l, parseRecord torn ≠ .record l) :
    firstRecordOffset (encodeSegment rs ++ torn) = rs.head?.map base := by
  cases rs with
  | nil => exact firstRecordOffset_eq_none htorn
  | cons r rs =>
  have hr := h r (.head _)
  have hspan := hr.parseRecordSpan_toBytes []
  rw [append_nil] at hspan
  rw [encodeSegment, flatMap_cons, append_assoc, firstRecordOffset,
    hr.declaredRecordSize_toBytes, bind_some, if_neg (by rw [length_append]; omega),
    take_left, hspan]
  rfl

theorem planFrom_append (h : ∀ r ∈ rs, r.WellFormed) (hlt : ∀ r ∈ rs, last r < target)
    (fuel cursor : Nat) (lastKept : Option Int) (rest : List UInt8) :
    planFrom target (fuel + rs.length) cursor lastKept (encodeSegment rs ++ rest) =
      planFrom target fuel (cursor + (encodeSegment rs).length)
        ((rs.getLast?.map last).or lastKept) rest := by
  induction rs generalizing cursor lastKept with
  | nil => rfl
  | cons r rs ih =>
    have henc : encodeSegment (r :: rs) = r.toBytes ++ encodeSegment rs := flatMap_cons
    have hkept : ((r :: rs).getLast?.map last).or lastKept =
        (rs.getLast?.map last).or (some (last r)) := by
      cases hlast : rs.getLast? <;> simp [getLast?_cons, hlast]
    rw [henc, append_assoc, length_cons, ← add_assoc,
      (h r (.head _)).planFrom_of_lt _ (hlt r (.head _)),
      ih (fun a ha => h a (.tail _ ha)) (fun a ha => hlt a (.tail _ ha)), hkept, length_append,
      add_assoc]

theorem planFrom_eq_atEnd (htorn : ∀ l, parseRecord torn ≠ .record l) (target : Int)
    (fuel cursor : Nat) (lastKept : Option Int) :
    planFrom target fuel cursor lastKept torn = .atEnd lastKept := by
  cases fuel with
  | zero => rfl
  | succ fuel => rw [planFrom, parseRecordSpan_eq_none htorn]

/-- Well-formed records with bytes behind them at which none starts: the scan goes over the records
before the first one that reaches the target. -/
theorem planSegmentTruncation_eq (target : Int) (h : ∀ r ∈ rs, r.WellFormed)
    (htorn : ∀ l, parseRecord torn ≠ .record l) :
    planSegmentTruncation (encodeSegment rs ++ torn) target =
      if rs.dropWhile (last · < target) = [] then
        .atEnd ((rs.takeWhile (last · < target)).getLast?.map last)
      else .atReach (encodeSegment (rs.takeWhile (last · < target))).length
        ((rs.takeWhile (last · < target)).getLast?.map last) := by
  have hsplit : rs.takeWhile (last · < target) ++ rs.dropWhile (last · < target) = rs :=
    takeWhile_append_dropWhile
  have hlt : ∀ r ∈ rs.takeWhile (last · < target), last r < target := by
    intro r hr
    simpa using mem_takeWhile_imp hr
  have hreach : ∀ r ∈ (rs.dropWhile (last · < target)).head?, target ≤ last r := by
    intro r hr
    simpa [mem_def.1 hr] using head?_dropWhile_not (fun r => decide (last r < target)) rs
  generalize rs.takeWhile (last · < target) = kept at *
  generalize rs.dropWhile (last · < target) = gone at *
  subst hsplit
  have hkept : ∀ r ∈ kept, r.WellFormed := fun r hr => h r (mem_append_left _ hr)
  have hbytes : encodeSegment (kept ++ gone) ++ torn =
      encodeSegment kept ++ (encodeSegment gone ++ torn) := by
    rw [encodeSegment, flatMap_append, append_assoc]
    rfl
  -- One unit of fuel is left over for what stands behind the records that stay.
  obtain ⟨fuel, hfuel⟩ : ∃ fuel, (encodeSegment (kept ++ gone) ++ torn).length + 1 =
      fuel + 1 + kept.length := by
    refine ⟨(encodeSegment (kept ++ gone) ++ torn).length - kept.length, ?_⟩
    have := length_le_length_encodeSegment kept
    rw [hbytes, length_append]
    omega
  rw [planSegmentTruncation, hfuel, hbytes, planFrom_append hkept hlt, zero_add, or_none]
  cases gone with
  | nil => rw [show encodeSegment [] ++ torn = torn from rfl, planFrom_eq_atEnd htorn, if_pos rfl]
  | cons r gone =>
  have henc : encodeSegment (r :: gone) = r.toBytes ++ encodeSegment gone := flatMap_cons
  rw [henc, append_assoc, (h r mem_append_cons_self).planFrom_of_reach _ (hreach r rfl),
    if_neg (cons_ne_nil _ _)]

/-- Where no record reaches the target the file stays as it is; else the records before the first
that does. -/
theorem planSegmentTruncation_append (target : Int) (h : ∀ r ∈ rs, r.WellFormed)
    (htorn : ∀ l, parseRecord torn ≠ .record l) :
    (planSegmentTruncation (encodeSegment rs ++ torn) target).apply (encodeSegment rs ++ torn) =
      if rs.dropWhile (last · < target) = [] then some (encodeSegment rs ++ torn)
      else if rs.takeWhile (last · < target) = [] then none
      else some (encodeSegment (rs.takeWhile (last · < target))) := by
  rw [planSegmentTruncation_eq target h htorn]
  split
  · cases (rs.takeWhile (last · < target)).getLast?.map last <;> rfl
  have hsplit : encodeSegment rs = encodeSegment (rs.takeWhile (last · < target)) ++
      encodeSegment (rs.dropWhile (last · < target)) := by
    rw [encodeSegment, encodeSegment, encodeSegment, ← flatMap_append, takeWhile_append_dropWhile]
  cases hlast : (rs.takeWhile (last · < target)).getLast? with
  | none =>
    rw [if_pos (getLast?_eq_none_iff.1 hlast)]
    rfl
  | some z =>
    rw [if_neg (ne_nil_of_mem (mem_of_getLast? hlast))]
    exact congrArg some (by rw [hsplit, append_assoc, take_left])

theorem firstRecordOffset_encodeSegment (h : ∀ r ∈ rs, r.WellFormed) :
    firstRecordOffset (encodeSegment rs) = rs.head?.map base := by
  have hfirst := firstRecordOffset_append h parseRecord_nil_ne
  rwa [append_nil] at hfirst

/-- The verdict about a file of well-formed records keeps the records before the first one that
reaches the target. -/
theorem planSegmentTruncation_encodeSegment (target : Int) (h : ∀ r ∈ rs, r.WellFormed) :
    (planSegmentTruncation (encodeSegment rs) target).apply (encodeSegment rs) =
      (cutSegment target rs).map encodeSegment := by
  have hcut := planSegmentTruncation_append target h parseRecord_nil_ne
  rw [append_nil] at hcut
  rw [hcut, cutSegment]
  split
  case isTrue hnone =>
    have hall : rs.takeWhile (last · < target) = rs := by
      nth_rewrite 2 [← takeWhile_append_dropWhile (p := (last · < target)) (l := rs)]
      rw [hnone, append_nil]
    rw [hall, if_neg (fun hif => hif.1 hif.2)]
    rfl
  case isFalse hsome =>
    have hne : rs ≠ [] := by
      rintro rfl
      exact hsome rfl
    simp only [hne, ne_eq, not_false_eq_true, true_and]
    split <;> rfl

end

theorem straddlerFrom_map (target : Int) (hfirst : ∀ f ∈ files, first' (g f) = first f) (i : Nat)
    (found : Option Nat) :
    straddlerFrom first' target i found (files.map g) = straddlerFrom first target i found files := by
  induction files generalizing i found with
  | nil => rfl
  | cons f files ih =>
    have hrest := ih fun a ha => hfirst a (.tail _ ha)
    rw [map_cons, straddlerFrom, straddlerFrom, hfirst f (.head _)]
    cases first f with
    | none => exact hrest _ _
    | some b => simp only [hrest]

/-- The surgery commutes with a change of the kind of file that preserves its three views. -/
theorem truncateFiles_map {φ ψ : Type*} {first : φ → Option Int} {cut : φ → Option φ}
    {isEmpty : φ → Bool} {first' : ψ → Option Int} {cut' : ψ → Option ψ} {isEmpty' : ψ → Bool}
    {g : φ → ψ} {files : List φ} (target : Int) (hfirst : ∀ f ∈ files, first' (g f) = first f)
    (hcut : ∀ f ∈ files, cut' (g f) = (cut f).map g)
    (hempty : ∀ f ∈ files, isEmpty' (g f) = isEmpty f) :
    truncateFiles first' cut' isEmpty' target (files.map g) =
      (truncateFiles first cut isEmpty target files).map g := by
  have hfilter : ∀ l : List φ, (∀ f ∈ l, f ∈ files) →
      (l.map g).filter isEmpty' = (l.filter isEmpty).map g := by
    intro l hl
    rw [List.filter_map]
    exact congrArg _ (filter_congr fun f hf => hempty f (hl f hf))
  rw [truncateFiles, truncateFiles, straddlerFrom_map target hfirst]
  cases straddlerFrom first target 0 none files with
  | none => exact hfilter files fun _ hf => hf
  | some i =>
  have hat : ((files.map g)[i]?.bind cut').toList = ((files[i]?.bind cut).toList).map g := by
    rw [getElem?_map]
    cases hf : files[i]? with
    | none => rfl
    | some f =>
      rw [map_some, bind_some, bind_some, hcut f (mem_of_getElem? hf)]
      cases cut f <;> rfl
  dsimp only
  rw [map_append, map_append, map_take, ← map_drop, hat, hfilter _ fun f hf => mem_of_mem_drop hf]

/-- A file that remains stood before the straddler, or is what is left of a file, or is empty. -/
theorem mem_truncateFiles_cases (h : f ∈ truncateFiles first cut blank target files) :
    (∃ i ∈ straddlerFrom first target 0 none files, f ∈ files.take i) ∨
      (∃ file ∈ files, cut file = some f) ∨ f ∈ files ∧ blank f := by
  rw [truncateFiles] at h
  split at h
  case h_1 => exact .inr (.inr (mem_filter.1 h))
  case h_2 i hi =>
  rw [mem_append, mem_append, mem_toList, bind_eq_some_iff] at h
  rcases h with h | ⟨file, hfile, hcut⟩ | h
  · exact .inl ⟨i, hi, h⟩
  · exact .inr (.inl ⟨file, mem_of_getElem? hfile, hcut⟩)
  · obtain ⟨hf, hempty⟩ := mem_filter.1 h
    exact .inr (.inr ⟨mem_of_mem_drop hf, hempty⟩)

theorem mem_truncateFiles (h : f ∈ truncateFiles first cut blank target files) :
    f ∈ files ∨ ∃ file ∈ files, cut file = some f := by
  rcases mem_truncateFiles_cases h with ⟨i, -, h⟩ | h | ⟨h, -⟩
  · exact .inl (mem_of_mem_take h)
  · exact .inr h
  · exact .inl h

/-- The surgery keeps the order of the files, under a key that a cut preserves. -/
theorem map_truncateFiles_sublist (target : Int) (files : List φ)
    (hcut : ∀ f f', cut f = some f' → key f' = key f) :
    ((truncateFiles first cut blank target files).map key).Sublist (files.map key) := by
  rw [truncateFiles]
  split
  case h_1 => exact filter_sublist.map key
  case h_2 i _ =>
  have hat : ((files[i]?.bind cut).toList.map key).Sublist (files[i]?.toList.map key) := by
    cases files[i]? with
    | none => exact .refl _
    | some f =>
    cases hf : cut f with
    | none => simp [hf]
    | some f' => simp [hf, hcut f f' hf]
  have hsplit : files = files.take i ++ (files[i]?.toList ++ files.drop (i + 1)) := by
    rw [← drop_eq_getElem?_toList_append, take_append_drop]
  nth_rewrite 4 [hsplit]
  rw [map_append, map_append, map_append, map_append]
  exact (List.Sublist.refl _).append (hat.append (filter_sublist.map key))

/-- On files that hold well-formed records and nothing else, the surgery on the bytes is the surgery
on the records. -/
theorem truncatePartitionFiles_encode {segs : List (List WalRecord)} (target : Int)
    (h : ∀ seg ∈ segs, ∀ r ∈ seg, r.WellFormed) :
    truncatePartitionFiles target (segs.map encodeSegment) =
      (truncateSegments target segs).map encodeSegment := by
  refine truncateFiles_map target (fun seg hseg => firstRecordOffset_encodeSegment (h seg hseg))
    (fun seg hseg => planSegmentTruncation_encodeSegment target (h seg hseg)) fun seg _ => ?_
  cases seg with
  | nil => rfl
  | cons r seg =>
  have := r.length_toBytes
  rw [encodeSegment, flatMap_cons, isEmpty_eq_false_iff.2, isEmpty_cons]
  rw [Ne, append_eq_nil_iff, ← length_eq_zero_iff]
  omega

theorem truncatePartitionFiles_encode_three_files :
    truncatePartitionFiles 12 ([[.newV2 0 "t" 0 [1] 0 9 10], [.newV2 0 "t" 0 [2] 10 11 2,
        .newV2 0 "t" 0 [3] 12 19 8], [.newV2 0 "t" 0 [4] 20 24 5]].map encodeSegment) =
      [[.newV2 0 "t" 0 [1] 0 9 10], [.newV2 0 "t" 0 [2] 10 11 2]].map encodeSegment :=
  truncatePartitionFiles_encode 12 (by decide)

end ChronikStream
