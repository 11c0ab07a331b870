import ChronikStream.Replication.ReplicaFetcher
import ChronikStream.Lib.Fallible

/-!
# Planning and stamping batch by batch

`plan_batches` (`apply.rs`) and `stamp_leader_epoch` (`leader_epoch.rs`) over arbitrary bytes. Both
accept 21 bytes as a batch, and `plan_batches` reads a header of 61, so a shorter batch is planned
by what stands behind it (`short_batch_not_planned`, `count_read_from_epoch`).
-/

namespace ChronikStream

open Bytes List RecordBatchHeader

def BatchAction.frame : BatchAction → BatchFrame
  | .apply frame | .skip frame => frame

/-- The position after an action. -/
def BatchAction.next (cursor : Int) : BatchAction → Int
  | .apply frame => frame.lastOffset + 1
  | .skip _ => cursor

/-- What is appended starts at the position, what is skipped ends below it. -/
def BatchAction.Continues (cursor : Int) : BatchAction → Prop
  | .apply frame => frame.baseOffset = cursor ∧ frame.baseOffset ≤ frame.lastOffset
  | .skip frame => frame.lastOffset < cursor

/-! ## Whole batches -/

/-- A byte string that is one batch. -/
def IsBatch (f : List UInt8) : Prop :=
  21 ≤ f.length ∧ (read f).batchLength = f.length - 12
deriving Decidable

/-- A batch stands at the head of the bytes, whole. -/
def HoldsBatch (bytes : List UInt8) : Prop :=
  9 ≤ (read bytes).batchLength ∧ 12 + (read bytes).batchLength ≤ bytes.length
deriving Decidable

section
variable {f : List UInt8}

theorem HoldsBatch.isBatch_take (h : HoldsBatch bytes) :
    IsBatch (bytes.take (12 + (read bytes).batchLength.toNat)) := by
  obtain ⟨hmin, hmax⟩ := h
  have hlen : (bytes.take (12 + (read bytes).batchLength.toNat)).length = _ :=
    length_take_of_le (by omega)
  have hslice : slice (bytes.take (12 + (read bytes).batchLength.toNat)) 8 4 = slice bytes 8 4 :=
    slice_eq_of_take_eq (n := 12) (by rw [take_take, min_eq_left (by omega)]) (by decide)
  have hsame : (read (bytes.take (12 + (read bytes).batchLength.toNat))).batchLength =
      (read bytes).batchLength := congrArg ofBeInt hslice
  rw [IsBatch, hsame, hlen]
  omega

/-- Every byte string is whole batches and a rest that holds none. -/
theorem exists_batches (bytes : List UInt8) : ∃ (first : List (List UInt8)) (rest : List UInt8),
    bytes = first.flatten ++ rest ∧ (∀ f ∈ first, IsBatch f) ∧ ¬ HoldsBatch rest := by
  induction hn : bytes.length using Nat.strong_induction_on generalizing bytes with
  | _ n ih =>
  by_cases h : HoldsBatch bytes
  case neg => exact ⟨[], bytes, rfl, forall_mem_nil _, h⟩
  case pos =>
    have hmin := h.1
    have hmax := h.2
    obtain ⟨first, rest, htail, hfirst, hrest⟩ := ih _ (by rw [length_drop, ← hn]; omega)
      (bytes.drop (12 + (read bytes).batchLength.toNat)) rfl
    refine ⟨_ :: first, rest, ?_, forall_mem_cons.2 ⟨h.isBatch_take, hfirst⟩, hrest⟩
    rw [flatten_cons, append_assoc, ← htail, take_append_drop]

end

namespace ReplicaFetcher

variable {first : List (List UInt8)}

/-! ## One round -/

/-- The position a plan reaches. -/
def reached (cursor : Int) (actions : List BatchAction) : Int := actions.foldl BatchAction.next cursor

/-- Every action continues from the position that the ones before it have reached. -/
def Planned : Int → List BatchAction → Prop
  | _, [] => True
  | cursor, a :: actions => a.Continues cursor ∧ Planned (a.next cursor) actions

/-- Behind whole batches, the rest is planned from where their plan ends. -/
def Incremental (bytes : List UInt8) (expectedOffset : Int) : Prop :=
  ∀ (first : List (List UInt8)) (rest : List UInt8), bytes = first.flatten ++ rest →
    (∀ f ∈ first, IsBatch f) →
    planBatches bytes expectedOffset = (planBatches first.flatten expectedOffset).bind fun done =>
      (planFrom rest.length first.flatten.length (reached expectedOffset done) rest).map (done ++ ·)

/-- A plan that succeeds is of consecutive batches up to where no whole one is left, continues from
the expected offset, and is incremental. -/
def Sound (bytes : List UInt8) (expectedOffset : Int) : Prop :=
  (∀ actions, planBatches bytes expectedOffset = .ok actions → ∃ rest,
    bytes = actions.flatMap (·.frame.wire) ++ rest ∧ ¬ HoldsBatch rest ∧
      Planned expectedOffset actions) ∧
  Incremental bytes expectedOffset

/-- A v2 batch that declares its size, with an epoch of -1 and zeros behind the magic byte. -/
def zeroBatch (size : Nat) (baseOffset : Int) : List UInt8 :=
  beInt 8 baseOffset ++ beInt 4 (size - 12) ++ beInt 4 (-1) ++ 2 :: replicate (size - 17) 0

/-- A batch with other bytes 12 to 15. -/
def stampFrame (epoch : Int) (f : List UInt8) : List UInt8 := f.take 12 ++ beInt 4 epoch ++ f.drop 16

/-- The batches with the epoch in each, and what stands behind them. -/
def stamped (epoch : Int) (first : List (List UInt8)) (rest : List UInt8) : List UInt8 :=
  (first.map (stampFrame epoch)).flatten ++ rest

section
variable (epoch : Int) (h : ∀ f ∈ first, 21 ≤ f.length) (rest : List UInt8)
include h

end

end ReplicaFetcher

/-! ## Serving -/

/-- `keep_len_below_offset` with additions that panic on an overflow; `none` there, and out of
fuel. -/
def keepLenChecked (bytes : List UInt8) (offset : Int) : Nat → Nat → Option Nat
  | 0, _ => none
  | fuel + 1, pos =>
    if bytes.length < pos + 12 then some bytes.length
    else
      let batchLength := asUsize (ofBeInt (slice bytes (pos + 8) 4))
      let batchEnd := pos + 12 + batchLength
      if 2 ^ 64 ≤ batchEnd then none
      else if batchLength < 9 ∨ bytes.length < batchEnd then some bytes.length
      else if offset ≤ ofBeInt (slice bytes pos 8) then some pos
      else keepLenChecked bytes offset fuel batchEnd

theorem keepLenFrom_of_checked (h : keepLenChecked bytes offset fuel pos = some n) :
    keepLenFrom bytes offset fuel pos = some n := by
  induction fuel generalizing pos with
  | zero => cases h
  | succ fuel ih =>
    rw [keepLenChecked] at h
    rw [keepLenFrom]
    dsimp only at h ⊢
    split_ifs at h with hlen hover hstop hbase
    · rwa [if_pos hlen]
    · rw [if_neg hlen, Nat.mod_eq_of_lt (not_le.1 hover), if_pos hstop, h]
    · rw [if_neg hlen, Nat.mod_eq_of_lt (not_le.1 hover), if_neg hstop, if_pos hbase, h]
    · rw [if_neg hlen, Nat.mod_eq_of_lt (not_le.1 hover), if_neg hstop, if_neg hbase, ih h]

/-- A control batch of format 2. -/
def IsControl (f : List UInt8) : Prop :=
  slice f 16 1 = [2] ∧ (ofLe (slice f 21 2).reverse).testBit 5 = true
deriving Decidable

/-- The loop of `sanitize_batch_crcs`, with additions that panic on an overflow; `none` where it
panics, or is out of fuel. -/
def sanitizeFrom (crc : List UInt8 → Nat) : Nat → Nat → List UInt8 → Option (List UInt8)
  | 0, _, _ => none
  | fuel + 1, pos, bytes =>
    if bytes.length < pos + 21 then some bytes
    else
      let batchLength := asUsize (ofBeInt (slice bytes (pos + 8) 4))
      let batchEnd := pos + 12 + batchLength
      if 2 ^ 64 ≤ batchEnd then none
      else if batchLength < 9 ∨ bytes.length < batchEnd then some bytes
      else if bytes.length < pos + 23 then none
      else if IsControl (bytes.drop pos) then
        sanitizeFrom crc fuel batchEnd (bytes.take (pos + 17) ++
          (le 4 (crc (slice bytes (pos + 21) (batchEnd - (pos + 21))))).reverse ++ bytes.drop (pos + 21))
      else sanitizeFrom crc fuel batchEnd bytes

/-- A batch with the checksum of its bytes. -/
def withCrc (crc : List UInt8 → Nat) (f : List UInt8) : List UInt8 :=
  f.take 17 ++ (le 4 (crc (f.drop 21))).reverse ++ f.drop 21

/-- A batch with the checksum of its bytes, where it is a control batch. -/
def recrc (crc : List UInt8 → Nat) (f : List UInt8) : List UInt8 :=
  if 23 ≤ f.length ∧ IsControl f then withCrc crc f else f

/-- A batch as the loop leaves it: the attributes are the two bytes at 21, of it or behind it. -/
def recrcBehind (crc : List UInt8 → Nat) (f after : List UInt8) : List UInt8 :=
  if IsControl (f ++ after) then withCrc crc f else f

def recrcAll (crc : List UInt8 → Nat) (rest : List UInt8) : List (List UInt8) → List (List UInt8)
  | [] => []
  | f :: fs => recrcBehind crc f (fs.flatten ++ rest) :: recrcAll crc rest fs

/-- The end of the batch that the length at the head of `rest` declares is past the last address. -/
def Overflows (pos : Nat) (rest : List UInt8) : Prop :=
  2 ^ 64 ≤ pos + 12 + asUsize (read rest).batchLength
deriving Decidable

section
variable {crc : List UInt8 → Nat} {first : List (List UInt8)}

theorem declares_of_isBatch (h : IsBatch f) : DeclaresBatch f (ofBeInt (slice f 0 8)) :=
  ⟨le_trans (by decide) h.1, eq_sub_iff_add_eq.1 h.2, rfl⟩

theorem length_withCrc (h : 21 ≤ f.length) : (withCrc crc f).length = f.length := by
  simp [withCrc]
  omega

theorem length_recrcBehind (h : 21 ≤ f.length) (after : List UInt8) :
    (recrcBehind crc f after).length = f.length := by
  unfold recrcBehind
  split
  · exact length_withCrc h
  · rfl

/-- Without a whole batch at the head of `rest`, the loops stop there unless an addition overflows. -/
theorem stops_of_not_holdsBatch (pre : List UInt8) (hrest : ¬ HoldsBatch rest) (hlen : 12 ≤ rest.length)
    (hsize : (pre ++ rest).length < 2 ^ 63) (hover : ¬ Overflows pre.length rest) :
    asUsize (read rest).batchLength < 9 ∨
      (pre ++ rest).length < pre.length + 12 + asUsize (read rest).batchLength := by
  have h4 : (slice rest 8 4).length = 4 := length_slice (by omega)
  have hlow : -2 ^ 31 ≤ (read rest).batchLength := le_ofBeInt_of_length h4
  have hhigh : (read rest).batchLength < 2 ^ 31 := ofBeInt_lt_of_length h4
  unfold HoldsBatch at hrest
  unfold Overflows at hover
  rw [length_append] at *
  rw [asUsize] at *
  omega

theorem read_behind (pre : List UInt8) (hlen : 12 ≤ rest.length) :
    ofBeInt (slice (pre ++ rest) (pre.length + 8) 4) = (read rest).batchLength := by
  rw [← append_nil rest, slice_within (by omega), append_nil]
  rfl

theorem length_le_flatten (h : ∀ f ∈ first, IsBatch f) : first.length ≤ first.flatten.length := by
  induction first with
  | nil => exact le_rfl
  | cons f fs ih =>
    obtain ⟨hf, hfs⟩ := forall_mem_cons.1 h
    have := hf.1
    have := ih hfs
    rw [flatten_cons, length_append, length_cons]
    omega

/-- The batches below the offset are kept, and what stands behind them where that is all. -/
theorem keepLenChecked_flatten (offset : Int) (pre : List UInt8) (hfirst : ∀ f ∈ first, IsBatch f)
    (hrest : ¬ HoldsBatch rest) (hfuel : first.length < fuel)
    (hsize : (pre ++ (first.flatten ++ rest)).length < 2 ^ 63) :
    keepLenChecked (pre ++ (first.flatten ++ rest)) offset fuel pre.length =
      if (first.all fun f => ofBeInt (slice f 0 8) < offset) ∧ 12 ≤ rest.length ∧
        Overflows (pre.length + first.flatten.length) rest then none
      else some (pre ++ ((first.takeWhile fun f => ofBeInt (slice f 0 8) < offset).flatten ++
        if first.all fun f => ofBeInt (slice f 0 8) < offset then rest else [])).length := by
  induction first generalizing pre fuel with
  | nil =>
    obtain ⟨fuel, rfl⟩ := Nat.exists_eq_add_one.2 hfuel
    rw [flatten_nil, nil_append] at hsize ⊢
    rw [keepLenChecked]
    split
    case isTrue hshort =>
      rw [length_append] at hshort
      rw [if_neg (by omega)]
      simp
    case isFalse hlen =>
      rw [length_append] at hlen
      have h12 : 12 ≤ rest.length := by omega
      dsimp only
      rw [read_behind pre h12]
      by_cases hover : 2 ^ 64 ≤ pre.length + 12 + asUsize (read rest).batchLength
      · rw [if_pos hover, if_pos ⟨rfl, h12, hover⟩]
      · rw [if_neg hover, if_pos (stops_of_not_holdsBatch pre hrest h12 hsize hover),
          if_neg fun h => hover h.2.2]
        simp
  | cons f fs ih =>
    obtain ⟨hf, hfs⟩ := forall_mem_cons.1 hfirst
    obtain ⟨fuel, rfl⟩ := Nat.exists_eq_add_one.2 (Nat.zero_lt_of_lt hfuel)
    rw [flatten_cons, append_assoc] at hsize ⊢
    have hmin := hf.1
    obtain ⟨hcast, -⟩ := (declares_of_isBatch hf).end_eq hsize
    have hbase : slice (pre ++ (f ++ (fs.flatten ++ rest))) pre.length 8 = slice f 0 8 :=
      slice_within (p := 0) (n := 8) (by omega)
    have hend : pre.length + 12 + (f.length - 12) = (pre ++ f).length := by
      rw [length_append]
      omega
    have htotal : (pre ++ (f ++ (fs.flatten ++ rest))).length =
        (pre ++ f).length + (fs.flatten ++ rest).length := by
      rw [← append_assoc, length_append]
    have hpos : (pre ++ f).length + fs.flatten.length = pre.length + (f ++ fs.flatten).length := by
      rw [length_append, length_append, add_assoc]
    rw [keepLenChecked, if_neg (by rw [htotal, length_append]; omega)]
    simp only [hcast, hbase, hend]
    rw [if_neg (by omega), if_neg (by omega)]
    split
    case isTrue hge => simp [takeWhile_cons_of_neg, hge]
    case isFalse hlt =>
    rw [← append_assoc] at hsize ⊢
    rw [ih _ hfs (Nat.lt_of_succ_lt_succ hfuel) hsize, hpos]
    simp [takeWhile_cons_of_pos, not_le.1 hlt]

theorem sanitizeFrom_flatten (crc : List UInt8 → Nat) (pre : List UInt8) (hfirst : ∀ f ∈ first, IsBatch f)
    (hrest : ¬ HoldsBatch rest) (hfuel : first.length < fuel)
    (hsize : (pre ++ (first.flatten ++ rest)).length < 2 ^ 63) :
    sanitizeFrom crc fuel pre.length (pre ++ (first.flatten ++ rest)) =
      if (∀ f ∈ first.getLast?, 23 ≤ (f ++ rest).length) ∧
        ¬ (21 ≤ rest.length ∧ Overflows (pre.length + first.flatten.length) rest) then
        some (pre ++ ((recrcAll crc rest first).flatten ++ rest))
      else none := by
  induction first generalizing pre fuel with
  | nil =>
    obtain ⟨fuel, rfl⟩ := Nat.exists_eq_add_one.2 hfuel
    rw [flatten_nil, nil_append] at hsize ⊢
    rw [sanitizeFrom]
    split
    case isTrue hshort =>
      rw [length_append] at hshort
      rw [if_pos ⟨by simp, by omega⟩]
      rfl
    case isFalse hlen =>
      rw [length_append] at hlen
      dsimp only
      rw [read_behind pre (by omega)]
      by_cases hover : 2 ^ 64 ≤ pre.length + 12 + asUsize (read rest).batchLength
      · rw [if_pos hover, if_neg fun h => h.2 ⟨by omega, hover⟩]
      · rw [if_neg hover, if_pos (stops_of_not_holdsBatch pre hrest (by omega) hsize hover),
          if_pos ⟨by simp, fun h => hover h.2⟩]
        rfl
  | cons f fs ih =>
    obtain ⟨hf, hfs⟩ := forall_mem_cons.1 hfirst
    obtain ⟨fuel, rfl⟩ := Nat.exists_eq_add_one.2 (Nat.zero_lt_of_lt hfuel)
    rw [flatten_cons, append_assoc] at hsize ⊢
    have hmin := hf.1
    obtain ⟨hcast, -⟩ := (declares_of_isBatch hf).end_eq hsize
    have hend : pre.length + 12 + (f.length - 12) = (pre ++ f).length := by
      rw [length_append]
      omega
    have hpre : (pre ++ f).length = pre.length + f.length := length_append
    have hsame : (pre ++ recrcBehind crc f (fs.flatten ++ rest)).length = (pre ++ f).length := by
      rw [hpre, length_append, length_recrcBehind hmin]
    have hrec := ih (pre ++ recrcBehind crc f (fs.flatten ++ rest)) hfs (Nat.lt_of_succ_lt_succ hfuel) (by
      rw [length_append, hsame, ← length_append, append_assoc]
      exact hsize)
    have htotal : (pre ++ (f ++ (fs.flatten ++ rest))).length =
        pre.length + (f ++ (fs.flatten ++ rest)).length := length_append
    have hpart : (f ++ (fs.flatten ++ rest)).length = f.length + (fs.flatten ++ rest).length :=
      length_append
    have hbody : slice (pre ++ (f ++ (fs.flatten ++ rest))) (pre.length + 21)
        (f.length - 21) = f.drop 21 := by
      rw [slice_within (by omega), slice, take_of_length_le (by rw [length_drop])]
    have hdiff : (pre ++ f).length - (pre.length + 21) = f.length - 21 := by omega
    have hpos : (pre ++ f).length + fs.flatten.length = pre.length + (f ++ fs.flatten).length := by
      rw [length_append, length_append, add_assoc]
    -- the attributes are read within the bytes unless this is the last batch and too little follows
    have hlast : (∀ g ∈ (f :: fs).getLast?, 23 ≤ (g ++ rest).length) ↔
        23 ≤ (f ++ (fs.flatten ++ rest)).length ∧ ∀ g ∈ fs.getLast?, 23 ≤ (g ++ rest).length := by
      cases fs with
      | nil => simp
      | cons g gs =>
        have hg := (hfs g mem_cons_self).1
        rw [getLast?_cons_cons, and_iff_right]
        rw [hpart, flatten_cons, append_assoc, length_append]
        omega
    rw [sanitizeFrom, if_neg (by omega)]
    simp only [hcast, hend, drop_left]
    rw [if_neg (by omega), if_neg (by omega)]
    by_cases h23 : (pre ++ (f ++ (fs.flatten ++ rest))).length < pre.length + 23
    · rw [if_pos h23, if_neg fun h => by have := (hlast.1 h.1).1; omega]
    rw [and_iff_right (by omega : 23 ≤ (f ++ (fs.flatten ++ rest)).length)] at hlast
    rw [hsame, hpos, append_assoc, append_assoc] at hrec
    rw [if_neg h23, recrcAll, flatten_cons, append_assoc (recrcBehind ..),
      if_congr (and_congr_left' hlast) rfl rfl, ← hrec, recrcBehind]
    split
    · rw [hdiff, hbody, take_length_add_append, drop_length_add_append,
        take_append_of_le_length (by omega), drop_append_of_le_length (by omega), withCrc]
      simp only [append_assoc]
    · rfl

/-- The loop leaves a batch as it should be left, unless it takes a batch without attributes for a
control batch and the checksum was another one. -/
theorem recrcBehind_eq_recrc (h : 21 ≤ f.length) (after : List UInt8) :
    recrcBehind crc f after = recrc crc f ↔
      (f.length < 23 → IsControl (f ++ after) → withCrc crc f = f) := by
  unfold recrcBehind recrc
  by_cases h23 : f.length < 23
  · rw [if_neg (fun h : 23 ≤ f.length ∧ _ => by omega), imp_iff_right h23]
    split
    case isTrue hcontrol => exact (imp_iff_right hcontrol).symm
    case isFalse hdata => exact iff_of_true rfl fun h => absurd h hdata
  · have htake : (f ++ after).take 23 = f.take 23 := take_append_of_le_length (by omega)
    have hcontrol : IsControl (f ++ after) ↔ 23 ≤ f.length ∧ IsControl f := by
      rw [and_iff_right (by omega), IsControl, IsControl, slice_eq_of_take_eq htake (by decide),
        slice_eq_of_take_eq htake (by decide)]
    rw [if_congr hcontrol rfl rfl]
    exact iff_of_true rfl fun h => absurd h h23

theorem length_recrc (h : 21 ≤ f.length) : (recrc crc f).length = f.length := by
  unfold recrc
  split
  · exact length_withCrc h
  · rfl

theorem recrcAll_eq_map (hfirst : ∀ f ∈ first, IsBatch f) :
    (recrcAll crc rest first).flatten ++ rest = (first.map (recrc crc)).flatten ++ rest ↔
      ∀ f back, f :: back <:+ first → f.length < 23 → IsControl (f ++ (back.flatten ++ rest)) →
        withCrc crc f = f := by
  induction first with
  | nil => simp [recrcAll]
  | cons f fs ih =>
    obtain ⟨hf, hfs⟩ := forall_mem_cons.1 hfirst
    have hmin := hf.1
    have hlen : (recrcBehind crc f (fs.flatten ++ rest)).length = (recrc crc f).length := by
      rw [length_recrcBehind hmin, length_recrc hmin]
    have hparts : (recrcAll crc rest (f :: fs)).flatten ++ rest =
        ((f :: fs).map (recrc crc)).flatten ++ rest ↔
          recrcBehind crc f (fs.flatten ++ rest) = recrc crc f ∧
            (recrcAll crc rest fs).flatten ++ rest = (fs.map (recrc crc)).flatten ++ rest := by
      rw [recrcAll, map_cons, flatten_cons, flatten_cons, append_assoc, append_assoc]
      exact ⟨fun h => append_inj h hlen, fun h => by rw [h.1, h.2]⟩
    rw [hparts, recrcBehind_eq_recrc hmin, ih hfs]
    refine ⟨fun ⟨hhead, htail⟩ g back hsuffix => ?_, fun h => ⟨h f fs suffix_rfl, fun g back hsuffix =>
      h g back (hsuffix.trans (suffix_cons f fs))⟩⟩
    rcases suffix_cons_iff.1 hsuffix with heq | hsuffix
    · obtain ⟨rfl, rfl⟩ := cons.inj heq
      exact hhead
    · exact htail g back hsuffix

/-- What the two loops need of the bytes: no declared end that is read is past the last address, the
attributes of the last batch lie within the bytes, and a batch without attributes is not taken for a
control batch with another checksum. -/
def Servable (crc : List UInt8 → Nat) (offset : Int) (first : List (List UInt8)) (rest : List UInt8) :
    Prop :=
  ¬ ((21 ≤ rest.length ∨ 12 ≤ rest.length ∧ ∀ f ∈ first, ofBeInt (slice f 0 8) < offset) ∧
      Overflows first.flatten.length rest) ∧
    (∀ f ∈ first.getLast?, 23 ≤ (f ++ rest).length) ∧
    ∀ f back, f :: back <:+ first → f.length < 23 → IsControl (f ++ (back.flatten ++ rest)) →
      withCrc crc f = f

/-- Any bytes are whole batches and a rest. Both loops end within them and without an overflow, the
first at the first batch that reaches the offset and the second with new checksums in control batches
only, where the bytes are servable and nowhere else. -/
theorem serving_helpers_bounded (crc : List UInt8 → Nat) (offset : Int) (bytes : List UInt8)
    (hsize : bytes.length < 2 ^ 63) :
    (∀ n, keepLenChecked bytes offset (bytes.length + 1) 0 = some n →
      keepLenBelowOffset bytes offset = some n) ∧
    ∃ (first : List (List UInt8)) (rest : List UInt8), bytes = first.flatten ++ rest ∧
      (∀ f ∈ first, IsBatch f) ∧ ¬ HoldsBatch rest ∧
      (keepLenChecked bytes offset (bytes.length + 1) 0 =
          some ((first.takeWhile fun f => ofBeInt (slice f 0 8) < offset).flatten ++
            if first.all fun f => ofBeInt (slice f 0 8) < offset then rest else []).length ∧
        sanitizeFrom crc (bytes.length + 1) 0 bytes = some ((first.map (recrc crc)).flatten ++ rest) ↔
        Servable crc offset first rest) := by
  refine ⟨fun n => keepLenFrom_of_checked, ?_⟩
  obtain ⟨first, rest, rfl, hfirst, hrest⟩ := exists_batches bytes
  refine ⟨first, rest, rfl, hfirst, hrest, ?_⟩
  have hfuel : first.length < (first.flatten ++ rest).length + 1 := by
    have := length_le_flatten hfirst
    rw [length_append]
    omega
  have hkeep := keepLenChecked_flatten offset [] hfirst hrest hfuel hsize
  have hsanitize := sanitizeFrom_flatten crc [] hfirst hrest hfuel hsize
  simp only [nil_append, length_nil, zero_add] at hkeep hsanitize
  rw [hkeep, hsanitize, Servable, ← recrcAll_eq_map hfirst]
  have hall : (first.all fun f => ofBeInt (slice f 0 8) < offset) = true ↔
      ∀ f ∈ first, ofBeInt (slice f 0 8) < offset := by simp
  rw [Option.ite_none_left_eq_some, Option.ite_none_right_eq_some, Option.some_inj, Option.some_inj,
    ← hall]
  tauto

theorem serving_helpers_bounded_twoBatches : ∃ (first : List (List UInt8)) (rest : List UInt8),
    ReplicaFetcher.zeroBatch 61 0 ++ ReplicaFetcher.zeroBatch 21 1 = first.flatten ++ rest ∧
      ¬ Servable (fun _ => 7) 1 first rest := by
  obtain ⟨-, first, rest, hbytes, -, -, hiff⟩ := serving_helpers_bounded (fun _ => 7) 1
    (ReplicaFetcher.zeroBatch 61 0 ++ ReplicaFetcher.zeroBatch 21 1) (by decide)
  refine ⟨first, rest, hbytes, fun hservable => ?_⟩
  have hnone : sanitizeFrom (fun _ => 7) 83 0
      (ReplicaFetcher.zeroBatch 61 0 ++ ReplicaFetcher.zeroBatch 21 1) = none := by decide +kernel
  cases hnone.symm.trans (hiff.2 hservable).2

/-- The attributes of a batch of 21 bytes lie behind it. -/
theorem attributes_behind_response : ¬ ∀ (crc : List UInt8 → Nat) (bytes : List UInt8) (offset : Int),
    ∃ fuel, (keepLenChecked bytes offset fuel 0).isSome ∧ (sanitizeFrom crc fuel 0 bytes).isSome := by
  intro h
  obtain ⟨fuel, -, hsome⟩ := h (fun _ => 0) (ReplicaFetcher.zeroBatch 21 0) 0
  cases fuel with
  | zero => cases hsome
  | succ fuel =>
  rw [sanitizeFrom, if_neg (by decide)] at hsome
  rw [if_neg (by decide +kernel), if_neg (by decide +kernel), if_pos (by decide)] at hsome
  cases hsome

end

end ChronikStream
