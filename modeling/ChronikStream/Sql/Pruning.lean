import ChronikStream.Lib.Bytes
import Mathlib.Data.List.Perm.Lattice

/-!
# Pruned scans of the hot table

A scan with pushed filters reads the partitions that equalities and IN lists on `_partition` name.
Two filters that name a partition read it twice, and an IN list with a member whose partition is not
found reads the others only (`pruned_scan_differs`). The filtered rows are the same exactly if no
partition is named, or each one with a row that passes is named once (`pruned_scan_same_rows`).
-/

namespace ChronikStream.PartitionedMemTable

open Bytes List

inductive ScalarType where
  | int8 | int16 | int32 | int64 | uint8 | uint16 | uint32 | uint64
  | other

/-- A literal, with the integer it is compared as. -/
structure ScalarValue where
  type : ScalarType
  value : Option Int

def scalarToI32 (s : ScalarValue) : Option Int :=
  match s.type with
  | .int32 | .int16 | .int8 => s.value
  | .int64 | .uint32 => s.value.map (wrap 4)
  | _ => none

inductive Term (ρ : Type*) where
  | column (name : String)
  | literal (value : ScalarValue)
  | computed (value : ρ → Option Int)

inductive Operator where
  | eq
  | other (holds : Int → Int → Bool)

def Operator.holds : Operator → Int → Int → Bool
  | .eq => (· == ·)
  | .other holds => holds

/-- A filter; any other expression is given by the rows that it lets through. -/
inductive Expr (ρ : Type*) where
  | binary (left : Term ρ) (op : Operator) (right : Term ρ)
  | inList (expr : Term ρ) (list : List (Term ρ)) (negated : Bool)
  | and (left right : Expr ρ)
  | other (passes : ρ → Bool)

variable {ρ : Type*} (cell : ρ → String → Option Int) (row : ρ)

def Term.value : Term ρ → Option Int
  | .column name => cell row name
  | .literal value => value.value
  | .computed value => value row

/-- The filter is true of the row, and not false or NULL. -/
def Expr.passes : Expr ρ → Bool
  | .binary left op right =>
    (left.value cell row).any fun x => (right.value cell row).any fun y => op.holds x y
  | .inList expr list negated => (expr.value cell row).any fun x =>
    if negated then list.all fun t => (t.value cell row).any (· ≠ x)
    else list.any fun t => t.value cell row = some x
  | .and left right => left.passes && right.passes
  | .other passes => passes row

/-- What one filter adds to `extract_partition_filters`. -/
def Expr.partitions : Expr ρ → List Int
  | .binary (.column name) .eq (.literal value) | .binary (.literal value) .eq (.column name) =>
    if name = "_partition" then (scalarToI32 value).toList else []
  | .inList (.column name) list false =>
    if name = "_partition" then
      list.filterMap fun
        | .literal value => scalarToI32 value
        | _ => none
    else []
  | _ => []

def extractPartitionFilters (filters : List (Expr ρ)) : List Int := filters.flatMap (·.partitions)

/-- The rows of each partition; `partitions` are the keys, in the order of iteration. -/
structure Table where
  partitions : List Int
  batch : Int → List ρ
  nodup : partitions.Nodup
  fits : ∀ p ∈ partitions, Fits 4 p
  partition_eq : ∀ p, ∀ row ∈ batch p, cell row "_partition" = some p

variable {cell} {row}

def Table.scan (t : Table cell) (filters : List (Expr ρ)) : List ρ :=
  let target := extractPartitionFilters filters
  (if target = [] then t.partitions else target.filter (· ∈ t.partitions)).flatMap t.batch

/-- The rows that pass all filters. -/
def filtered (cell : ρ → String → Option Int) (filters : List (Expr ρ)) (rows : List ρ) : List ρ :=
  rows.filter fun row => filters.all (·.passes cell row)

/-- The literals that a filter compares `_partition` with for equality. -/
def Expr.literals : Expr ρ → List ScalarValue
  | .binary (.column name) .eq (.literal value) | .binary (.literal value) .eq (.column name) =>
    if name = "_partition" then [value] else []
  | .inList (.column name) list false =>
    if name = "_partition" then
      list.filterMap fun
        | .literal value => some value
        | _ => none
    else []
  | _ => []

/-- None of the literals names a partition, or each partition with a row that passes the filters is
named by exactly one of them. -/
def NamedOnce (t : Table cell) (filters : List (Expr ρ)) : Prop :=
  (∀ s ∈ filters.flatMap (·.literals), scalarToI32 s = none) ∨
  ∀ p ∈ t.partitions, (∃ row ∈ t.batch p, filters.all (·.passes cell row)) →
    (filters.flatMap (·.literals)).countP (scalarToI32 · == some p) = 1

/-- What a filter adds are the literals that can be cast. -/
theorem Expr.partitions_eq (f : Expr ρ) : f.partitions = f.literals.filterMap scalarToI32 := by
  fun_cases Expr.partitions f with
  | case1 s | case3 s =>
    rw [literals, if_pos rfl, filterMap_cons]
    split <;> simp_all
  | case2 _ _ h | case4 _ _ h | case6 _ _ h => rw [literals, if_neg h, filterMap_nil]
  | case5 list =>
    rw [literals, if_pos rfl, filterMap_filterMap]
    congr
    funext t
    cases t <;> rfl
  | case7 => simp [literals]

theorem extractPartitionFilters_eq (filters : List (Expr ρ)) :
    extractPartitionFilters filters = (filters.flatMap (·.literals)).filterMap scalarToI32 := by
  rw [extractPartitionFilters, filterMap_flatMap]
  congr
  funext f
  exact f.partitions_eq

/-- A row of one part only occurs as often as that part is taken. -/
theorem count_flatMap_of_not_mem [DecidableEq ρ] {g : Int → List ρ} (h : ∀ q, q ≠ p → row ∉ g q)
    (l : List Int) : (l.flatMap g).count row = l.count p * (g p).count row := by
  induction l with
  | nil => simp
  | cons q l ih =>
    rw [flatMap_cons, count_append, ih, count_cons]
    by_cases hq : q = p
    case pos => simp [hq, Nat.succ_mul, add_comm]
    case neg => simp [hq, count_eq_zero_of_not_mem (h q hq)]

/-- The pruned scan gives each row that passes the filters as often as the full one, if and only if
no partition is named or each one with such a row is named once. -/
theorem pruned_scan_same_rows (t : Table cell) (filters : List (Expr ρ)) :
    (filtered cell filters (t.scan filters)).Perm
      (filtered cell filters (t.partitions.flatMap t.batch)) ↔ NamedOnce t filters := by
  classical
  have hnames := extractPartitionFilters_eq filters
  rw [Table.scan, NamedOnce]
  split
  case isTrue hnil => exact iff_of_true (.refl _) (.inl (filterMap_eq_nil_iff.1 (hnames ▸ hnil)))
  case isFalse hne =>
  rw [or_iff_right fun h => hne (hnames.trans (filterMap_eq_nil_iff.2 h)), perm_iff_count, filtered,
    filtered, filter_flatMap, filter_flatMap]
  -- a row that passes is counted once for each time that its partition is taken
  have hcounts : ∀ p ∈ t.partitions, ∀ row ∈ filtered cell filters (t.batch p),
      (((extractPartitionFilters filters).filter (· ∈ t.partitions)).flatMap fun p =>
          filtered cell filters (t.batch p)).count row =
        (t.partitions.flatMap fun p => filtered cell filters (t.batch p)).count row ↔
      (filters.flatMap (·.literals)).countP (scalarToI32 · == some p) = 1 := by
    intro p hp row hrow
    have hother : ∀ q, q ≠ p → row ∉ filtered cell filters (t.batch q) := by
      intro q hq hmem
      have hsame := t.partition_eq q row (mem_filter.1 hmem).1
      rw [t.partition_eq p row (mem_filter.1 hrow).1] at hsame
      exact hq (Option.some.inj hsame).symm
    rw [count_flatMap_of_not_mem hother, count_flatMap_of_not_mem hother,
      count_eq_one_of_mem t.nodup hp, count_filter (by exact decide_eq_true hp), hnames, count_filterMap,
      Nat.mul_right_cancel_iff (count_pos_iff.2 hrow)]
  constructor
  · rintro h p hp ⟨row, hrow, hpass⟩
    exact (hcounts p hp row (mem_filter.2 ⟨hrow, hpass⟩)).1 (h row)
  · intro h row
    by_cases hmem : ∃ p ∈ t.partitions, row ∈ filtered cell filters (t.batch p)
    case pos =>
      obtain ⟨p, hp, hrow⟩ := hmem
      obtain ⟨hbatch, hpass⟩ := mem_filter.1 hrow
      exact (hcounts p hp row hrow).2 (h p hp ⟨row, hbatch, hpass⟩)
    case neg =>
      have hnot : ∀ l : List Int, (∀ p ∈ l, p ∈ t.partitions) →
          (l.flatMap fun p => filtered cell filters (t.batch p)).count row = 0 := by
        intro l hl
        refine count_eq_zero_of_not_mem fun hrow => ?_
        obtain ⟨p, hp, hrow⟩ := mem_flatMap.1 hrow
        exact hmem ⟨p, hl p hp, hrow⟩
      exact (hnot _ fun p hp => of_decide_eq_true (mem_filter.1 hp).2).trans (hnot _ fun _ hp => hp).symm

/-- A row is its partition, and its offset too. -/
def cellOf (row : Int) (_ : String) : Option Int := some row

def twoRows : Table cellOf where
  partitions := [1, 2]
  batch p := [p]
  nodup := by decide
  fits := by decide
  partition_eq _ _ h := congrArg some (mem_singleton.1 h)

def isOne : Expr Int := .binary (.column "_partition") .eq (.literal ⟨.int64, some 1⟩)

/-- `_partition = 1` twice gives the row twice, and `_partition IN (1, _offset)` only one of its two
rows. -/
theorem pruned_scan_differs :
    let any := .inList (.column "_partition") [.literal ⟨.int64, some 1⟩, .column "_offset"] false
    filtered cellOf [isOne, isOne] (twoRows.scan [isOne, isOne]) = [1, 1] ∧
    filtered cellOf [isOne, isOne] [1, 2] = [1] ∧
    filtered cellOf [any] (twoRows.scan [any]) = [1] ∧
    filtered cellOf [any] [1, 2] = [1, 2] := by
  decide +kernel

end ChronikStream.PartitionedMemTable
