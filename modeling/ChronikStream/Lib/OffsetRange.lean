import ChronikStream.Lib.Slots
import Mathlib.Algebra.Order.Group.Int
import Mathlib.Data.List.Pairwise
import Mathlib.Data.List.TakeWhile

/-!
# Lists of offset ranges

A log as a list of values that each occupy a range of offsets: `Ascending`, `ContiguousFrom o` (it
starts at `o` and leaves no hole), `endFrom o` (the offset after the last value), and `StartsAt o`
(the first value holds `o`, the others follow without a hole).
-/

/-- Values that occupy the offsets from `base` to `last`, both included. -/
class OffsetRange (ρ : Type*) where
  base : ρ → Int
  last : ρ → Int

namespace OffsetRange

open List

variable {ρ : Type*} [OffsetRange ρ] {o : Int} {rs as bs : List ρ} {r : ρ}

/-- Two ranges without a common offset, when neither is empty. -/
def Apart (a b : ρ) : Prop :=
  last a < base b ∨ last b < base a
deriving Decidable

theorem Apart.symm {a b : ρ} (h : Apart a b) : Apart b a :=
  Or.symm h

instance : Std.Symm (Apart (ρ := ρ)) :=
  ⟨fun _ _ => Apart.symm⟩

/-- Every value ends before the ones behind it start. -/
def Ascending (rs : List ρ) : Prop :=
  rs.Pairwise fun a b => last a < base b
deriving Decidable

/-- The ranges follow each other from `o` on without a hole. -/
def ContiguousFrom : Int → List ρ → Prop
  | _, [] => True
  | o, r :: rs => base r = o ∧ o ≤ last r ∧ ContiguousFrom (last r + 1) rs

instance instDecidableContiguousFrom : ∀ (o : Int) (rs : List ρ), Decidable (ContiguousFrom o rs)
  | _, [] => .isTrue trivial
  | _, r :: rs =>
    have := instDecidableContiguousFrom (last r + 1) rs
    inferInstanceAs (Decidable (_ ∧ _ ∧ _))

/-- The offset after the last value of a list that starts at `o`. -/
def endFrom : Int → List ρ → Int
  | o, [] => o
  | _, r :: rs => endFrom (last r + 1) rs

theorem endFrom_append : endFrom o (as ++ bs) = endFrom (endFrom o as) bs := by
  induction as generalizing o with
  | nil => rfl
  | cons r as ih => exact ih

theorem contiguousFrom_append :
    ContiguousFrom o (as ++ bs) ↔ ContiguousFrom o as ∧ ContiguousFrom (endFrom o as) bs := by
  induction as generalizing o with
  | nil => simp [ContiguousFrom, endFrom]
  | cons r as ih => simp [ContiguousFrom, endFrom, ih, and_assoc]

theorem ContiguousFrom.le_endFrom (h : ContiguousFrom o rs) : o ≤ endFrom o rs := by
  induction rs generalizing o with
  | nil => exact le_refl o
  | cons r rs ih =>
    have := ih h.2.2
    have := h.2.1
    simp only [endFrom]
    omega

/-- How many offsets the ranges of a list cover together. -/
def extent : List ρ → Int
  | [] => 0
  | r :: rs => last r - base r + 1 + extent rs

theorem extent_append : extent (as ++ bs) = extent as + extent bs := by
  induction as with
  | nil => simp [extent]
  | cons r as ih =>
    simp only [cons_append, extent, ih]
    omega

theorem extent_perm (h : as.Perm bs) : extent as = extent bs := by
  induction h with
  | nil => rfl
  | cons r _ ih => simp only [extent, ih]
  | swap r r' _ =>
    simp only [extent]
    omega
  | trans _ _ ih ih' => exact ih.trans ih'

theorem eq_nil_of_extent (hne : ∀ r ∈ rs, base r ≤ last r) (h : extent rs ≤ 0) : rs = [] := by
  have hpos : ∀ rs : List ρ, (∀ r ∈ rs, base r ≤ last r) → 0 ≤ extent rs := by
    intro rs hne
    induction rs with
    | nil => exact le_refl 0
    | cons r rs ih =>
      obtain ⟨hr, hne⟩ := forall_mem_cons.1 hne
      have := ih hne
      simp only [extent]
      omega
  cases rs with
  | nil => rfl
  | cons r rs =>
  obtain ⟨hr, hne⟩ := forall_mem_cons.1 hne
  have := hpos rs hne
  simp only [extent] at h
  omega

section
variable (h : ContiguousFrom o rs)
include h

theorem ContiguousFrom.endFrom_eq : endFrom o rs = o + extent rs := by
  induction rs generalizing o with
  | nil => exact (add_zero o).symm
  | cons r rs ih =>
    simp only [endFrom, extent, ih h.2.2, ← h.1]
    omega

theorem ContiguousFrom.bounds (hr : r ∈ rs) :
    o ≤ base r ∧ base r ≤ last r ∧ last r < endFrom o rs := by
  induction rs generalizing o with
  | nil => cases hr
  | cons a rs ih =>
    obtain ⟨hbase, hlast, hrest⟩ := h
    cases hr with
    | head =>
      have := hrest.le_endFrom
      simp only [endFrom]
      omega
    | tail _ hr =>
      obtain ⟨hlo, hne, hhi⟩ := ih hrest hr
      exact ⟨by omega, hne, hhi⟩

theorem ContiguousFrom.exists_mem (hlo : o ≤ x) (hhi : x < endFrom o rs) :
    ∃ r ∈ rs, base r ≤ x ∧ x ≤ last r := by
  induction rs generalizing o with
  | nil =>
    simp only [endFrom] at hhi
    omega
  | cons a rs ih =>
    obtain ⟨hbase, hlast, hrest⟩ := h
    rcases Int.lt_or_le (last a) x with hx | hx
    · obtain ⟨r, hr, hin⟩ := ih hrest (by omega) hhi
      exact ⟨r, .tail _ hr, hin⟩
    · exact ⟨a, .head _, by omega, hx⟩

theorem ContiguousFrom.ascending : Ascending rs := by
  induction rs generalizing o with
  | nil => exact .nil
  | cons a rs ih =>
    refine List.Pairwise.cons (fun b hb => ?_) (ih h.2.2)
    have := (h.2.2.bounds hb).1
    omega

end

theorem Ascending.last_lt_endFrom (h : Ascending rs) (hne : ∀ r ∈ rs, base r ≤ last r) (hr : r ∈ rs) :
    last r < endFrom o rs := by
  induction rs generalizing o r with
  | nil => cases hr
  | cons a rs ih =>
    obtain ⟨hhead, hrest⟩ := pairwise_cons.1 h
    have hne' : ∀ r ∈ rs, base r ≤ last r := fun r hr => hne r (.tail _ hr)
    cases hr with
    | tail _ hr => exact ih hrest hne' hr
    | head =>
    cases rs with
    | nil => exact Int.lt_succ _
    | cons b rs =>
    have := hhead b (.head _)
    have := hne' b (.head _)
    have : last b < endFrom (last a + 1) (b :: rs) := ih hrest hne' (.head _)
    rw [endFrom]
    omega

theorem Ascending.eq_or_apart (h : Ascending rs) (ha : a ∈ rs) (hb : b ∈ rs) :
    a = b ∨ Apart a b := by
  have hpair : rs.Pairwise Apart := h.imp fun hlt => Or.inl hlt
  by_cases hab : a = b
  · exact .inl hab
  · exact .inr (hpair.forall ha hb hab)

theorem ContiguousFrom.concat_of_base_eq (h : ContiguousFrom o rs) (has : as <+: rs) (hr : r ∈ rs)
    (hbase : base r = endFrom o as) : as ++ [r] <+: rs := by
  obtain ⟨rest, rfl⟩ := has
  obtain ⟨hfront, hrest⟩ := contiguousFrom_append.1 h
  rcases mem_append.1 hr with hr | hr
  · have := hfront.bounds hr
    omega
  cases rest with
  | nil => cases hr
  | cons a rest =>
  rcases mem_cons.1 hr with rfl | hr
  · exact ⟨rest, by rw [append_assoc, singleton_append]⟩
  have := hrest.2.2.bounds hr
  have := hrest.2.1
  omega

theorem ContiguousFrom.mem_of_base_lt (h : ContiguousFrom o rs) (has : as <+: rs) (hr : r ∈ rs)
    (hbase : base r < endFrom o as) : r ∈ as := by
  obtain ⟨rest, rfl⟩ := has
  rcases mem_append.1 hr with hr | hr
  · exact hr
  · have := (contiguousFrom_append.1 h).2.bounds hr
    omega

theorem contiguousFrom_map {σ : Type*} [OffsetRange σ] {f : ρ → σ} (hbase : ∀ r, base (f r) = base r)
    (hlast : ∀ r, last (f r) = last r) : ContiguousFrom o (rs.map f) ↔ ContiguousFrom o rs := by
  induction rs generalizing o with
  | nil => exact Iff.rfl
  | cons r rs ih => rw [map_cons, ContiguousFrom, ContiguousFrom, hbase, hlast, ih]

theorem ContiguousFrom.takeWhile (h : ContiguousFrom o rs) (p : ρ → Bool) :
    ContiguousFrom o (rs.takeWhile p) := by
  rw [← takeWhile_append_dropWhile (p := p) (l := rs)] at h
  exact (contiguousFrom_append.1 h).1

theorem ContiguousFrom.endFrom_takeWhile_le (h : ContiguousFrom o rs) (p : ρ → Bool) :
    endFrom o (rs.takeWhile p) ≤ endFrom o rs := by
  have hsplit := takeWhile_append_dropWhile (p := p) (l := rs)
  rw [← hsplit] at h
  have hle := (contiguousFrom_append.1 h).2.le_endFrom
  rwa [← endFrom_append, hsplit] at hle

/-! ## The values that overlap a range -/

variable {lo hi : Int}

/-- The value has an offset from `lo` on and below `hi`, when it is not empty. -/
def Overlaps (r : ρ) (lo hi : Int) : Prop := lo ≤ last r ∧ base r < hi
deriving Decidable

/-- The first value holds `o`, and the others follow it without a hole. -/
def StartsAt (o : Int) : List ρ → Prop
  | [] => False
  | r :: rs => base r ≤ o ∧ o ≤ last r ∧ ContiguousFrom (base r) (r :: rs)

instance (o : Int) : ∀ rs : List ρ, Decidable (StartsAt o rs)
  | [] => .isFalse id
  | _ :: _ => inferInstanceAs (Decidable (_ ∧ _ ∧ _))

theorem StartsAt.ne_nil (h : StartsAt o rs) : rs ≠ [] := by
  rintro rfl
  exact h

theorem StartsAt.of_isPrefix (h : StartsAt o rs) (has : as <+: rs) (hne : as ≠ []) : StartsAt o as := by
  obtain ⟨rest, rfl⟩ := has
  cases as with
  | nil => exact absurd rfl hne
  | cons r as =>
    obtain ⟨hbase, hlast, hrest⟩ := h
    exact ⟨hbase, hlast, (contiguousFrom_append.1 hrest).1⟩

theorem startsAt_map {σ : Type*} [OffsetRange σ] {f : ρ → σ} (hbase : ∀ r, base (f r) = base r)
    (hlast : ∀ r, last (f r) = last r) : StartsAt o (rs.map f) ↔ StartsAt o rs := by
  cases rs with
  | nil => exact Iff.rfl
  | cons r rs =>
  have hmap : ContiguousFrom (base r) ((r :: rs).map f) ↔ ContiguousFrom (base r) (r :: rs) :=
    contiguousFrom_map hbase hlast
  rw [map_cons] at hmap ⊢
  rw [StartsAt, StartsAt, hbase, hlast, hmap]

theorem filter_overlaps_cons_of_pos (h : Overlaps r lo hi) :
    (r :: rs).filter (Overlaps · lo hi) = r :: rs.filter (Overlaps · lo hi) := by
  rw [filter_cons, if_pos (decide_eq_true h)]

theorem filter_overlaps_cons_of_neg (h : ¬ Overlaps r lo hi) :
    (r :: rs).filter (Overlaps · lo hi) = rs.filter (Overlaps · lo hi) := by
  rw [filter_cons, if_neg (by rwa [decide_eq_true_iff])]

theorem filter_overlaps_ne_nil (hr : r ∈ rs) (h : Overlaps r lo hi) :
    rs.filter (Overlaps · lo hi) ≠ [] :=
  ne_nil_of_mem (mem_filter.2 ⟨hr, decide_eq_true h⟩)

section
variable (h : ContiguousFrom o rs)
include h

theorem ContiguousFrom.filter_overlaps_eq_nil (hhi : hi ≤ o) :
    rs.filter (Overlaps · lo hi) = [] := by
  refine filter_eq_nil_iff.2 fun r hr hin => ?_
  have hbase := (h.bounds hr).1
  have hlt := (of_decide_eq_true hin).2
  omega

/-- Values above an offset do not start at it, whatever follows them. -/
theorem ContiguousFrom.not_startsAt_append (hlo : lo < o) (has : as ⊆ rs)
    (hne : as ≠ []) (bs : List ρ) : ¬ StartsAt lo (as ++ bs) := by
  intro hstarts
  cases as with
  | nil => exact hne rfl
  | cons r as =>
  have hbase := (h.bounds (has (.head _))).1
  have hle := hstarts.1
  omega

theorem ContiguousFrom.filter_base_lt (hi : Int) : ContiguousFrom o (rs.filter (base · < hi)) := by
  induction rs generalizing o with
  | nil => trivial
  | cons r rs ih =>
    obtain ⟨hbase, hlast, hrest⟩ := h
    by_cases hr : base r < hi
    · rw [filter_cons, if_pos (decide_eq_true hr)]
      exact ⟨hbase, hlast, ih hrest⟩
    have hnone : (r :: rs).filter (base · < hi) = [] := by
      refine filter_eq_nil_iff.2 fun a ha hlt => hr ?_
      have hlt := of_decide_eq_true hlt
      rcases mem_cons.1 ha with rfl | ha
      · exact hlt
      · have := (hrest.bounds ha).1
        omega
    rw [hnone]
    trivial

/-- The values of a contiguous list that overlap a range from one of its offsets on start at that
offset. -/
theorem ContiguousFrom.startsAt_filter (hlo : o ≤ lo)
    (hend : lo < endFrom o rs) (hhi : lo < hi) : StartsAt lo (rs.filter (Overlaps · lo hi)) := by
  induction rs generalizing o with
  | nil => exact absurd hend (not_lt.2 hlo)
  | cons r rs ih =>
    obtain ⟨hbase, hlast, hrest⟩ := h
    rcases Int.lt_or_le (last r) lo with hr | hr
    · have hnot : ¬ Overlaps r lo hi := fun h => absurd h.1 (not_le.2 hr)
      rw [filter_overlaps_cons_of_neg hnot]
      exact ih hrest (by omega) hend
    have hrange : ∀ a ∈ rs, decide (Overlaps a lo hi) = decide (base a < hi) := by
      intro a ha
      have := hrest.bounds ha
      exact decide_eq_decide.2 ⟨fun h => h.2, fun h => ⟨by omega, h⟩⟩
    have hfirst : Overlaps r lo hi := ⟨hr, by omega⟩
    rw [filter_overlaps_cons_of_pos hfirst, filter_congr hrange]
    exact ⟨by omega, hr, rfl, by omega, hrest.filter_base_lt hi⟩

theorem ContiguousFrom.filter_eq_singleton (hr : r ∈ rs) (hlo : base r ≤ lo)
    (hlt : lo < hi) (hhi : hi ≤ last r + 1) : rs.filter (Overlaps · lo hi) = [r] := by
  induction rs generalizing o with
  | nil => cases hr
  | cons a rs ih =>
    obtain ⟨hbase, hlast, hrest⟩ := h
    rcases mem_cons.1 hr with rfl | hr
    · have hin : Overlaps r lo hi := ⟨by omega, by omega⟩
      rw [filter_overlaps_cons_of_pos hin, hrest.filter_overlaps_eq_nil hhi]
    have hbase := (hrest.bounds hr).1
    have hout : ¬ Overlaps a lo hi := fun h => absurd h.1 (by omega)
    rw [filter_overlaps_cons_of_neg hout]
    exact ih hrest hr

theorem ContiguousFrom.base_head (hne : rs ≠ []) : base (rs.head hne) = o := by
  cases rs with
  | nil => exact absurd rfl hne
  | cons r rs => exact h.1

end

theorem endFrom_eq_last_getLast (hne : rs ≠ []) : endFrom o rs = last (rs.getLast hne) + 1 := by
  induction rs generalizing o with
  | nil => exact absurd rfl hne
  | cons r rs ih =>
    cases rs with
    | nil => rfl
    | cons r' rs =>
      rw [endFrom]
      exact ih _

end OffsetRange
