import ChronikStream.Wal.Truncate
import Mathlib.Algebra.GroupWithZero.Nat
import Mathlib.Data.List.Chain

/-!
# The in-memory tail of a partition's log

`TailCache` of `group_commit.rs`: the records most recently handed to `append`, in offset order,
whether or not they have been written yet. A read is bounded by a mark of durability that the
caller passes in; the cache itself knows nothing about durability.
-/

namespace ChronikStream

open OffsetRange List Option

/-- The most recently appended records under a byte budget. -/
structure TailCache where
  records : List WalRecord
  bytes : Nat
  maxBytes : Nat
  /-- The lowest offset from which the cache runs gap-free to its end. -/
  contiguousFrom : Option Int
  deriving DecidableEq

namespace TailCache

def new (maxBytes : Nat) : TailCache :=
  ⟨[], 0, maxBytes, none⟩

/-- The walk back from the end of the cache while each record continues the next. -/
def walkBack : Option Int → List WalRecord → Option Int
  | expected, [] => expected
  | none, r :: rs => walkBack (some r.baseOffset) rs
  | some e, r :: rs => if r.lastOffset + 1 ≠ e then some e else walkBack (some r.baseOffset) rs

section
variable (c : TailCache) (record : WalRecord)

def recomputeContiguousFrom : TailCache :=
  { c with contiguousFrom := walkBack none c.records.reverse }

/-- Eviction from the front while the cache is over budget and holds more than one record. -/
def evict (maxBytes : Nat) : Nat → Option Int → List WalRecord → TailCache
  | bytes, from?, r :: front :: rest =>
    if maxBytes < bytes then
      evict maxBytes (bytes - r.heapSize)
        (some (from?.elim front.baseOffset (max · front.baseOffset))) (front :: rest)
    else ⟨r :: front :: rest, bytes, maxBytes, from?⟩
  | bytes, from?, rs => ⟨rs, bytes, maxBytes, from?⟩

/-- The record ordered into place, unless one with its base is held already. -/
def insertOrdered (size : Nat) : TailCache :=
  let below := c.records.takeWhile (·.baseOffset < record.baseOffset)
  let above := c.records.dropWhile (·.baseOffset < record.baseOffset)
  recomputeContiguousFrom { c with records := below ++ record :: above, bytes := c.bytes + size }

/-- A record just handed to `append`, in whatever order the appends of a partition arrive. -/
def push (size : Nat) : TailCache :=
  if c.maxBytes = 0 then c
  else if c.records.getLast?.all (·.lastOffset + 1 == record.baseOffset) then
    evict c.maxBytes (c.bytes + size)
      (if c.records.isEmpty then some record.baseOffset else c.contiguousFrom)
      (c.records ++ [record])
  else if (c.records.dropWhile (·.baseOffset < record.baseOffset)).head?.any
      (·.baseOffset == record.baseOffset) then c
  else
    let c' := c.insertOrdered record size
    evict c'.maxBytes c'.bytes c'.contiguousFrom c'.records

def clear : TailCache :=
  ⟨[], 0, c.maxBytes, none⟩

/-- The records a read returns: those that reach `offset`, up to the first one above the durable
mark or past the budget of messages. -/
def collect (offset : Int) (maxRecords : Nat) (durableThrough : Int) :
    Nat → List WalRecord → List WalRecord
  | _, [] => []
  | messages, r :: rs =>
    if r.lastOffset < offset then collect offset maxRecords durableThrough messages rs
    else if durableThrough < r.lastOffset then []
    else if maxRecords ≤ messages then []
    else r :: collect offset maxRecords durableThrough
      (messages + (max r.recordCount 1).toNat) rs

/-- Records from `offset` on, or `none` where the caller has to read the files. -/
def readFrom (offset : Int) (maxRecords : Nat) (durableThrough : Int) : Option (List WalRecord) :=
  match c.contiguousFrom with
  | none => none
  | some start =>
    if offset < start then none
    else match collect offset maxRecords durableThrough 0 c.records with
      | [] => none
      | out => some out

end

section
variable {c : TailCache} {r x : WalRecord}

theorem mem_evict {maxBytes bytes : Nat}
    (h : x ∈ (evict maxBytes bytes from? rs).records) : x ∈ rs := by
  fun_induction evict maxBytes bytes from? rs with
  | case1 bytes from? r front rest _ ih => exact .tail _ (ih h)
  | case2 | case3 => exact h

theorem mem_push (h : x ∈ (c.push r size).records) : x = r ∨ x ∈ c.records := by
  rw [push] at h
  split at h
  · exact .inr h
  split at h
  · exact (mem_concat.1 (mem_evict h)).symm
  split at h
  · exact .inr h
  rcases mem_append.1 (mem_evict h) with hx | hx
  · exact .inr (takeWhile_subset _ hx)
  rcases mem_cons.1 hx with hx | hx
  · exact .inl hx
  · exact .inr (dropWhile_subset _ hx)

theorem mem_collect
    (h : x ∈ collect offset maxRecords mark messages rs) : x ∈ rs ∧ x.lastOffset ≤ mark := by
  fun_induction collect offset maxRecords mark messages rs with
  | case1 => cases h
  | case2 messages r rs _ ih => exact ⟨.tail _ (ih h).1, (ih h).2⟩
  | case3 | case4 => cases h
  | case5 messages r rs _ hmark _ ih =>
    cases h with
    | head => exact ⟨.head _, not_lt.1 hmark⟩
    | tail _ h => exact ⟨.tail _ (ih h).1, (ih h).2⟩

variable (h : c.readFrom offset maxRecords mark = some out)
include h

theorem readFrom_eq_some :
    ∃ start, c.contiguousFrom = some start ∧ start ≤ offset ∧
      collect offset maxRecords mark 0 c.records = out ∧ out ≠ [] := by
  rw [readFrom] at h
  split at h
  case h_1 => cases h
  case h_2 start hstart =>
  obtain ⟨hle, h⟩ := ite_none_left_eq_some.1 h
  split at h <;> cases h
  rename_i hout
  exact ⟨start, hstart, not_lt.1 hle, rfl, hout⟩

theorem mem_readFrom (hx : x ∈ out) : x ∈ c.records ∧ x.lastOffset ≤ mark := by
  obtain ⟨start, -, -, rfl, -⟩ := readFrom_eq_some h
  exact mem_collect hx

end

/-! ## What the cache mirrors -/

section
variable {c : TailCache} {r z : WalRecord} {from? : Option Int} {bytes : Nat} {rs : List WalRecord}

def pushAll (c : TailCache) (rs : List WalRecord) : TailCache :=
  rs.foldl (fun c r => c.push r r.heapSize) c

/-- No gap between a record and the next one, if that begins above `start`. -/
def Follows (start : Int) (a b : WalRecord) : Prop := base b ≤ start ∨ last a + 1 = base b

/-- In order, none empty, sizes counted, and no gap above `from?`, which is not below the first. -/
structure Mirrors (from? : Option Int) (bytes : Nat) (rs : List WalRecord) : Prop where
  ascending : Ascending rs
  nonempty : ∀ r ∈ rs, base r ≤ last r
  bytes_eq : bytes = (rs.map WalRecord.heapSize).sum
  run : ∀ z ∈ rs.head?, ∃ start, from? = some start ∧ base z ≤ start ∧ rs.IsChain (Follows start)

/-- What holds between two pushes. -/
structure GapFree (c : TailCache) : Prop extends Mirrors c.contiguousFrom c.bytes c.records where
  budget : c.bytes ≤ c.maxBytes ∨ c.records.length ≤ 1

/-- The walk back from a record over those before it. Above where it stops there is no gap. -/
theorem walkBack_spec (z : WalRecord) (hdesc : (z :: rs).Pairwise fun b a => base a ≤ base b) :
    ∃ start, walkBack (some (base z)) rs = some start ∧ (∀ a ∈ (z :: rs).getLast?, base a ≤ start) ∧
      (z :: rs).IsChain fun b a => Follows start a b := by
  induction rs generalizing z with
  | nil => exact ⟨base z, rfl, by simp, .singleton _⟩
  | cons a rs ih =>
    obtain ⟨hhead, hdesc⟩ := pairwise_cons.1 hdesc
    by_cases heq : last a + 1 = base z
    · obtain ⟨start, hwalk, hlow, hchain⟩ := ih a hdesc
      exact ⟨start, (if_neg (not_not.2 heq)).trans hwalk, by simpa using hlow, hchain.cons_cons (.inr heq)⟩
    have hle : ∀ b ∈ z :: a :: rs, base b ≤ base z := by simpa using hhead
    refine ⟨base z, if_pos heq, fun b hb => hle b (mem_of_mem_getLast? hb), List.Pairwise.isChain ?_⟩
    exact pairwise_of_forall_mem_list fun b hb _ _ => .inl (hle b hb)

theorem run_recompute (hasc : Ascending rs) (hne : ∀ r ∈ rs, base r ≤ last r) :
    ∀ z ∈ rs.head?, ∃ start, walkBack none rs.reverse = some start ∧ base z ≤ start ∧ rs.IsChain (Follows start) := by
  have hdesc : rs.reverse.Pairwise fun b a => base a ≤ base b :=
    pairwise_reverse.2 (hasc.imp_of_mem fun ha _ hlt => (hne _ ha).trans hlt.le)
  simp only [← getLast?_reverse, ← isChain_reverse (l := rs)]
  cases hrs : rs.reverse with
  | nil => simp
  | cons y ys =>
    obtain ⟨start, hwalk, hlow, hchain⟩ := walkBack_spec y (hrs ▸ hdesc)
    exact fun z hz => ⟨start, hwalk, hlow z hz, hchain⟩

/-- Evicting the oldest record can only raise where the run begins. -/
theorem Mirrors.evict (h : Mirrors from? bytes (r :: z :: rs)) :
    Mirrors (some (from?.elim (base z) (max · (base z)))) (bytes - r.heapSize) (z :: rs) := by
  obtain ⟨start, rfl, -, hchain⟩ := h.run r rfl
  refine ⟨h.ascending.of_cons, fun x hx => h.nonempty x (.tail _ hx), by simp [h.bytes_eq], fun y hy => ?_⟩
  cases hy
  refine ⟨_, rfl, le_max_right _ _, hchain.tail.imp fun a b hab => ?_⟩
  exact hab.imp_left fun hle => hle.trans (le_max_left _ _)

theorem Mirrors.gapFree_evict (maxBytes : Nat) (h : Mirrors from? bytes rs) :
    (TailCache.evict maxBytes bytes from? rs).GapFree := by
  fun_induction TailCache.evict maxBytes bytes from? rs with
  | case1 bytes from? r front rest hlt ih => exact ih h.evict
  | case2 bytes from? r front rest hle => exact ⟨h, .inl (not_lt.1 hle)⟩
  | case3 bytes from? rs hshort =>
    refine ⟨h, .inr ?_⟩
    rcases rs with _ | ⟨a, _ | ⟨b, rs⟩⟩
    · exact Nat.zero_le 1
    · exact le_refl 1
    · exact absurd rfl (hshort a b rs)

theorem Mirrors.concat (h : Mirrors from? bytes rs) (hr : base r ≤ last r)
    (hnext : ∀ z ∈ rs.getLast?, last z + 1 = base r) :
    Mirrors (if rs.isEmpty then some (base r) else from?) (bytes + r.heapSize) (rs ++ [r]) := by
  refine ⟨?_, by simpa [or_imp, forall_and, hr] using h.nonempty, by simp [h.bytes_eq], ?_⟩
  · refine pairwise_concat.2 ⟨h.ascending, fun x hx => ?_⟩
    have hnil := ne_nil_of_mem hx
    rw [← hnext _ (getLast?_eq_some_getLast hnil), ← endFrom_eq_last_getLast (o := 0) hnil]
    exact h.ascending.last_lt_endFrom h.nonempty hx
  · cases rs with
    | nil => simp
    | cons z rs =>
    obtain ⟨start, hstart, hle, hchain⟩ := h.run z rfl
    simp only [cons_append, head?_cons, mem_def, some.injEq, forall_eq']
    exact ⟨start, hstart, hle, isChain_append.2 ⟨hchain, .singleton _, by simpa using fun x hx => .inr (hnext x hx)⟩⟩

/-- The record that is ordered into place between the others. -/
theorem ascending_insert (hasc : Ascending rs) (hne : ∀ x ∈ rs, base x ≤ last x) (hr : base r ≤ last r)
    (hapart : ∀ x ∈ rs, Apart r x) :
    Ascending (rs.takeWhile (base · < base r) ++ r :: rs.dropWhile (base · < base r)) := by
  unfold Ascending Apart at *
  induction rs with
  | nil => exact pairwise_singleton _ _
  | cons y rs ih =>
    have hbelow := takeWhile_subset (base · < base r) (l := rs)
    rw [takeWhile_cons, dropWhile_cons]
    by_cases hlt : base y < base r <;> simp only [hlt, decide_true, decide_false, if_true] <;>
      grind [pairwise_cons]

/-- A record apart from the cached ones keeps the cache in order and without a gap. -/
theorem GapFree.push (h : c.GapFree) (hr : base r ≤ last r) (hapart : ∀ x ∈ c.records, Apart r x) :
    (c.push r r.heapSize).GapFree := by
  unfold TailCache.push
  split
  · exact h
  split
  · rename_i hlast
    have hnext : ∀ z ∈ c.records.getLast?, z.lastOffset + 1 = r.baseOffset := fun z hz => by
      simpa [mem_def.1 hz] using hlast
    exact (h.concat hr hnext).gapFree_evict _
  split
  · exact h
  have hperm : (c.insertOrdered r r.heapSize).records.Perm (r :: c.records) := by
    refine perm_middle.trans (.cons _ (.of_eq ?_))
    exact takeWhile_append_dropWhile
  have hasc : Ascending (c.insertOrdered r r.heapSize).records := ascending_insert h.ascending h.nonempty hr hapart
  have hne : ∀ x ∈ (c.insertOrdered r r.heapSize).records, base x ≤ last x := fun x hx => by
    rcases mem_cons.1 (hperm.mem_iff.1 hx) with rfl | hx
    · exact hr
    · exact h.nonempty x hx
  refine Mirrors.gapFree_evict _ ⟨hasc, hne, ?_, run_recompute hasc hne⟩
  rw [(hperm.map _).sum_nat]
  simp [insertOrdered, recomputeContiguousFrom, h.bytes_eq, add_comm]

theorem GapFree.pushAll (h : c.GapFree) (hne : ∀ r ∈ rs, base r ≤ last r) (hapart : rs.Pairwise Apart)
    (hcached : ∀ r ∈ rs, ∀ x ∈ c.records, Apart r x) : (c.pushAll rs).GapFree := by
  induction rs generalizing c with
  | nil => exact h
  | cons r rs ih =>
    obtain ⟨hr, hrest⟩ := pairwise_cons.1 hapart
    refine ih (h.push (hne r (.head _)) (hcached r (.head _))) (fun x hx => hne x (.tail _ hx)) hrest ?_
    intro y hy x hx
    rcases mem_push hx with rfl | hx
    · exact (hr y hy).symm
    · exact hcached y (.tail _ hy) x hx

/-- What a read collects behind a record that reaches its offset. -/
theorem contiguousFrom_collect (h : (r :: rs).IsChain (Follows start))
    (hasc : Ascending (r :: rs)) (hne : ∀ x ∈ rs, base x ≤ last x) (hstart : start ≤ o) (ho : o ≤ last r) :
    ContiguousFrom (last r + 1) (collect o m d n rs) := by
  induction rs generalizing r n with
  | nil => trivial
  | cons y rs ih =>
    have hlast : y.lastOffset = last y := rfl
    unfold Ascending at *
    grind [collect, ContiguousFrom, Follows]

theorem startsAt_collect (h : rs.IsChain (Follows start)) (hasc : Ascending rs)
    (hne : ∀ x ∈ rs, base x ≤ last x) (hstart : start ≤ o) (hhead : ∀ z ∈ rs.head?, base z ≤ o)
    (hnil : collect o m d n rs ≠ []) : StartsAt o (collect o m d n rs) := by
  induction rs with
  | nil => exact absurd rfl hnil
  | cons r rs ih =>
    obtain ⟨hnext, hchain⟩ := isChain_cons.1 h
    by_cases hlt : last r < o
    · have hskip : collect o m d n (r :: rs) = collect o m d n rs := if_pos hlt
      rw [hskip] at hnil ⊢
      refine ih hchain hasc.of_cons (fun x hx => hne x (.tail _ hx)) (fun z hz => ?_) hnil
      rcases hnext z hz with hle | heq <;> omega
    · have hrest := contiguousFrom_collect (m := m) (d := d) (n := n + (max r.recordCount 1).toNat) h hasc
        (fun x hx => hne x (.tail _ hx)) hstart (not_lt.1 hlt)
      have hlast : r.lastOffset = last r := rfl
      grind [collect, StartsAt, ContiguousFrom]

theorem GapFree.startsAt_readFrom (h : c.GapFree)
    (hout : c.readFrom o m d = some out) : StartsAt o out := by
  obtain ⟨start, hstart, hle, rfl, hnil⟩ := readFrom_eq_some hout
  obtain ⟨z, zs, hrs⟩ : ∃ z zs, c.records = z :: zs := exists_cons_of_ne_nil fun hrs => by
    rw [hrs] at hnil
    exact hnil rfl
  obtain ⟨_, heq, hz, hchain⟩ := h.run z (by simp [hrs])
  obtain rfl := some.inj (hstart.symm.trans heq)
  exact startsAt_collect hchain h.ascending h.nonempty hle (by simpa [hrs] using hz.trans hle) hnil

/-- After any pushes of disjoint ranges the cache is in order, within its budget and without a gap
above `contiguousFrom`; a read begins at its offset, leaves no gap and stops at the durable mark. -/
theorem pushed_gapFree (c : TailCache) (rs : List WalRecord) (hne : ∀ r ∈ rs, r.baseOffset ≤ r.lastOffset)
    (hapart : rs.Pairwise Apart) :
    (c.clear.pushAll rs).GapFree ∧ ∀ (o : Int) (m : Nat) (d : Int) (out : List WalRecord),
      (c.clear.pushAll rs).readFrom o m d = some out → StartsAt o out ∧ ∀ r ∈ out, r.lastOffset ≤ d := by
  have hclear : c.clear.GapFree := ⟨⟨.nil, by simp [clear], rfl, by simp [clear]⟩, .inl (Nat.zero_le _)⟩
  have h := hclear.pushAll hne hapart fun _ _ x hx => absurd hx not_mem_nil
  exact ⟨h, fun o m d out hout => ⟨h.startsAt_readFrom hout, fun r hr => (mem_readFrom hout hr).2⟩⟩

/-- Three records out of order, in a cache for two of them. -/
def reordered : List WalRecord :=
  [.newV2 0 "t" 0 [] 0 4 5, .newV2 0 "t" 0 [] 8 9 2, .newV2 0 "t" 0 [] 5 7 3]

theorem pushed_gapFree_reordered :
    (∀ r ∈ reordered, r.baseOffset ≤ r.lastOffset) ∧ reordered.Pairwise Apart ∧
      (((new 140).clear.pushAll reordered).records.map fun r => (base r, last r)) = [(5, 7), (8, 9)] ∧
      ((new 140).clear.pushAll reordered).GapFree := by
  have hne : ∀ r ∈ reordered, r.baseOffset ≤ r.lastOffset := by decide
  have hapart : reordered.Pairwise Apart := by decide
  exact ⟨hne, hapart, by decide, (pushed_gapFree (new 140) reordered hne hapart).1⟩

end

end TailCache

end ChronikStream
