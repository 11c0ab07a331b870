import ChronikStream.Lib.OrderedMap
import Mathlib.Algebra.GroupWithZero.Nat
import Mathlib.Data.List.Rotate
import Mathlib.Data.List.Sort
import Mathlib.Data.String.Basic

/-!
# The cooperative sticky assignor

Each member keeps what it owns and is subscribed to; the partitions that are left go to the least
loaded members in turn. No partition is given to two members if none was owned by two
(`assign_disjoint`). The turn is that of the first loads, so that it need not come to the least
loaded member (`loaded_member_is_given_more`); `least_loaded_first_iff` says when it does. Where the
order of a map shows, it is a part of the context.
-/

namespace ChronikStream

open List Option OrderedMap

abbrev MemberAssignment := OrderedMap String (List Int)

abbrev GroupAssignment := OrderedMap String MemberAssignment

def MemberAssignment.Owns (a : MemberAssignment) (tp : String × Int) : Prop :=
  ∃ partitions ∈ a.get? tp.1, tp.2 ∈ partitions

instance (a : MemberAssignment) (tp : String × Int) : Decidable (a.Owns tp) :=
  inferInstanceAs (Decidable (∃ partitions ∈ a.get? tp.1, _))

namespace GroupAssignment

def Owns (A : GroupAssignment) (member : String) (tp : String × Int) : Prop :=
  ∃ a ∈ A.get? member, MemberAssignment.Owns a tp

/-- Two assignments give no partition to different members. -/
def Compatible (A B : GroupAssignment) : Prop :=
  ∀ member member' tp, Owns A member tp → Owns B member' tp → member = member'

def Disjoint (A : GroupAssignment) : Prop := Compatible A A

def push (A : GroupAssignment) (member : String) (tp : String × Int) : GroupAssignment :=
  A.upsert member fun a => (a.getD .empty).upsert tp.1 fun partitions => partitions.getD [] ++ [tp.2]

end GroupAssignment

structure AssignmentContext where
  /-- The topics with their numbers of partitions, in the order of an iteration. -/
  topics : List (String × Nat)
  /-- The subscription of each member and what it owns. -/
  members : OrderedMap String (List String × MemberAssignment)
  /-- The members in the order of an iteration. -/
  order : List String

namespace AssignmentContext

variable (ctx : AssignmentContext)

def partitions (topic : String) : List Int :=
  ((ctx.topics.find? (·.1 = topic)).map fun x => (List.range x.2).map Int.ofNat).getD []

def Subscribed (topic member : String) : Prop :=
  ∃ x ∈ ctx.members.get? member, topic ∈ x.1
deriving Decidable

/-- The first pass: what a member keeps of what it owns. -/
def keep (subscription : List String) (owned : MemberAssignment) : MemberAssignment :=
  owned.filterMapValues fun topic partitions =>
    if topic ∈ subscription then
      let valid := partitions.filter (· ∈ ctx.partitions topic)
      if valid = [] then none else some valid
    else none

def kept : GroupAssignment :=
  ctx.members.mapValues fun _ x => ctx.keep x.1 x.2

def unassigned : List (String × Int) :=
  ctx.topics.flatMap fun x =>
    ((List.range x.2).map fun i => (x.1, Int.ofNat i)).filter fun tp =>
      ¬ ∃ y ∈ ctx.kept.entries, MemberAssignment.Owns y.2 tp

def load (member : String) : Nat :=
  ((ctx.kept.get? member).map fun a => (a.entries.map (·.2.length)).sum).getD 0

/-- The members by their loads; members with the same load stay in their order. -/
def eligible : List String :=
  ctx.order.insertionSort fun x y => ctx.load x ≤ ctx.load y

/-- The next member from an index on, in turn, that is subscribed to the topic; with its index. -/
def nextMember (topic : String) (start : Nat) : Option (Nat × String) :=
  (List.range ctx.eligible.length).findSome? fun k =>
    let i := (start + k) % ctx.eligible.length
    (ctx.eligible[i]?.filter (ctx.Subscribed topic ·)).map (i, ·)

/-- The second pass: each partition goes to the next member. -/
def assignRest (ctx : AssignmentContext) : List (String × Int) → Nat → GroupAssignment → GroupAssignment
  | [], _, A => A
  | tp :: rest, start, A =>
    match ctx.nextMember tp.1 start with
    | some (i, member) => assignRest ctx rest ((i + 1) % ctx.eligible.length) (A.push member tp)
    | none => assignRest ctx rest ((start + 1) % ctx.eligible.length) A

def assign : GroupAssignment := ctx.assignRest ctx.unassigned 0 ctx.kept

end AssignmentContext

/-! ## Who owns what -/

section
variable {ctx : AssignmentContext} {A : GroupAssignment} {member member' : String}
  {tp : String × Int}

theorem MemberAssignment.not_owns_empty : ¬ MemberAssignment.Owns .empty tp := by
  rintro ⟨partitions, hpartitions, -⟩
  cases hpartitions

theorem MemberAssignment.owns_iff_mem {a : MemberAssignment} :
    a.Owns tp ↔ ∃ x ∈ a.entries, x.1 = tp.1 ∧ tp.2 ∈ x.2 := by
  constructor
  · rintro ⟨partitions, hpartitions, hmem⟩
    exact ⟨(tp.1, partitions), get?_eq_some_iff.1 hpartitions, rfl, hmem⟩
  · rintro ⟨⟨topic, partitions⟩, hx, rfl, hmem⟩
    exact ⟨partitions, get?_eq_some_iff.2 hx, hmem⟩

theorem GroupAssignment.compatible_iff {B : GroupAssignment} :
    A.Compatible B ↔ ∀ x ∈ A.entries, ∀ y ∈ B.entries, x.1 ≠ y.1 →
      ∀ z ∈ x.2.entries, ∀ p ∈ z.2, ¬ MemberAssignment.Owns y.2 (z.1, p) := by
  constructor
  · intro h x hx y hy hne z hz p hp hown
    refine hne (h x.1 y.1 (z.1, p) ⟨x.2, get?_eq_some_iff.2 hx, ?_⟩
      ⟨y.2, get?_eq_some_iff.2 hy, hown⟩)
    exact MemberAssignment.owns_iff_mem.2 ⟨z, hz, rfl, hp⟩
  · rintro h member member' ⟨topic, p⟩ ⟨a, ha, hown⟩ ⟨b, hb, hown'⟩
    by_contra hne
    obtain ⟨z, hz, htopic, hp⟩ := MemberAssignment.owns_iff_mem.1 hown
    refine h (member, a) (get?_eq_some_iff.1 ha) (member', b)
      (get?_eq_some_iff.1 hb) hne z hz p hp ?_
    rwa [htopic]

instance (A B : GroupAssignment) : Decidable (A.Compatible B) :=
  decidable_of_iff _ GroupAssignment.compatible_iff.symm

instance (A : GroupAssignment) : Decidable A.Disjoint := inferInstanceAs (Decidable (A.Compatible A))

theorem MemberAssignment.owns_push {a : MemberAssignment} :
    MemberAssignment.Owns (a.upsert tp.1 fun partitions => partitions.getD [] ++ [tp.2]) tp' ↔
      a.Owns tp' ∨ tp' = tp := by
  by_cases htopic : tp'.1 = tp.1
  · rw [Owns, htopic, get?_upsert_self, Owns, htopic]
    cases a.get? tp.1 <;> simp [Prod.ext_iff, htopic]
  · rw [Owns, get?_upsert_of_ne htopic]
    exact (or_iff_left fun heq => htopic (congrArg Prod.fst heq)).symm

theorem GroupAssignment.owns_push :
    (A.push member tp).Owns member' tp' ↔ A.Owns member' tp' ∨ member' = member ∧ tp' = tp := by
  by_cases hmember : member' = member
  · subst hmember
    rw [Owns, push, get?_upsert_self, Owns]
    cases A.get? member' with
    | none => simp [MemberAssignment.owns_push, MemberAssignment.not_owns_empty]
    | some a => simp [MemberAssignment.owns_push]
  · rw [Owns, push, get?_upsert_of_ne hmember]
    exact (or_iff_left fun heq => hmember heq.1).symm

theorem GroupAssignment.Disjoint.push (h : A.Disjoint) (hfree : ∀ m, ¬ A.Owns m tp) :
    (A.push member tp).Disjoint := by
  intro m m' tp' hm hm'
  rw [owns_push] at hm hm'
  rcases hm with hm | ⟨hmem, rfl⟩
  · rcases hm' with hm' | ⟨-, rfl⟩
    · exact h m m' tp' hm hm'
    · exact absurd hm (hfree m)
  · rcases hm' with hm' | ⟨hmem', -⟩
    · exact absurd hm' (hfree m')
    · exact hmem.trans hmem'.symm

namespace AssignmentContext

theorem owns_of_owns_keep (h : (ctx.keep subscription owned).Owns tp) : owned.Owns tp := by
  obtain ⟨partitions, hpartitions, hmem⟩ := h
  rw [keep, get?_filterMapValues] at hpartitions
  obtain ⟨all, hall, hvalid⟩ := bind_eq_some_iff.1 hpartitions
  obtain ⟨-, hvalid⟩ := ite_none_right_eq_some.1 hvalid
  obtain ⟨-, hvalid⟩ := ite_none_left_eq_some.1 hvalid
  cases hvalid
  exact ⟨all, hall, (mem_filter.1 hmem).1⟩

def OwnedDisjoint (ctx : AssignmentContext) : Prop :=
  ∀ member member' tp, ∀ x ∈ ctx.members.get? member, ∀ x' ∈ ctx.members.get? member',
    x.2.Owns tp → x'.2.Owns tp → member = member'

theorem kept_disjoint (h : ctx.OwnedDisjoint) : ctx.kept.Disjoint := by
  rintro member member' tp ⟨a, ha, hown⟩ ⟨a', ha', hown'⟩
  rw [kept, get?_mapValues] at ha ha'
  obtain ⟨x, hx, rfl⟩ := map_eq_some_iff.1 ha
  obtain ⟨x', hx', rfl⟩ := map_eq_some_iff.1 ha'
  exact h member member' tp x hx x' hx' (owns_of_owns_keep hown) (owns_of_owns_keep hown')

theorem not_owns_of_mem_unassigned (h : tp ∈ ctx.unassigned) (member : String) :
    ¬ ctx.kept.Owns member tp := by
  rintro ⟨a, ha, hown⟩
  obtain ⟨x, -, hx⟩ := mem_flatMap.1 h
  exact of_decide_eq_true (mem_filter.1 hx).2 ⟨(member, a), get?_eq_some_iff.1 ha, hown⟩

theorem nodup_unassigned (h : (ctx.topics.map Prod.fst).Nodup) : ctx.unassigned.Nodup := by
  have htopic : ∀ x : String × Nat, ∀ tp ∈ ((List.range x.2).map fun i => (x.1, Int.ofNat i)).filter
      (fun tp => ¬ ∃ y ∈ ctx.kept.entries, MemberAssignment.Owns y.2 tp), tp.1 = x.1 := by
    intro x tp htp
    obtain ⟨i, -, rfl⟩ := mem_map.1 (mem_filter.1 htp).1
    rfl
  refine nodup_flatMap.2 ⟨fun x _ => ?_, ?_⟩
  · refine (List.Nodup.map (fun i j heq => ?_) nodup_range).filter _
    exact Int.ofNat.inj (congrArg Prod.snd heq)
  · refine (pairwise_map.1 h).imp fun {x y} hne => ?_
    intro tp hx hy
    exact hne ((htopic x tp hx).symm.trans (htopic y tp hy))

/-- The partitions that are given out were free and are given out once. -/
theorem assignRest_disjoint (h : A.Disjoint) (hnodup : rest.Nodup)
    (hfree : ∀ tp ∈ rest, ∀ member, ¬ A.Owns member tp) : (ctx.assignRest rest start A).Disjoint := by
  induction rest generalizing start A with
  | nil => exact h
  | cons tp rest ih =>
    obtain ⟨htp, hrest⟩ := nodup_cons.1 hnodup
    rw [assignRest]
    split
    case h_1 i member _ =>
      refine ih (h.push (hfree tp (.head _))) hrest fun tp' htp' m hown => ?_
      rcases GroupAssignment.owns_push.1 hown with hown | ⟨-, rfl⟩
      · exact hfree tp' (.tail _ htp') m hown
      · exact htp htp'
    case h_2 => exact ih h hrest fun tp' htp' => hfree tp' (.tail _ htp')

/-- No partition is given to two members, if none was owned by two. -/
theorem assign_disjoint (h : ctx.OwnedDisjoint) (htopics : (ctx.topics.map Prod.fst).Nodup) :
    ctx.assign.Disjoint :=
  assignRest_disjoint (kept_disjoint h) (nodup_unassigned htopics) fun _ => not_owns_of_mem_unassigned

theorem isSome_assignRest (h : (A.get? member).isSome) :
    ((ctx.assignRest rest start A).get? member).isSome := by
  induction rest generalizing start A with
  | nil => exact h
  | cons tp rest ih =>
    rw [assignRest]
    split
    case h_1 i member' _ =>
      refine ih ?_
      by_cases hmember : member = member'
      · subst hmember
        rw [GroupAssignment.push, get?_upsert_self]
        rfl
      · rwa [GroupAssignment.push, get?_upsert_of_ne hmember]
    case h_2 => exact ih h

theorem isSome_assign (h : (ctx.members.get? member).isSome) : (ctx.assign.get? member).isSome := by
  refine isSome_assignRest ?_
  rw [kept, get?_mapValues, isSome_map]
  exact h

/-! ## Who is given the partitions that are left -/

/-- Each partition of the second pass with the member it is given to and the number of partitions
that each member has at that moment. -/
def given (ctx : AssignmentContext) :
    List (String × Int) → Nat → (String → Nat) → List ((String × Int) × Option String × (String → Nat))
  | [], _, _ => []
  | tp :: rest, start, loads =>
    match ctx.nextMember tp.1 start with
    | some (i, member) =>
      (tp, some member, loads) :: given ctx rest ((i + 1) % ctx.eligible.length)
        (Function.update loads member (loads member + 1))
    | none => (tp, none, loads) :: given ctx rest ((start + 1) % ctx.eligible.length) loads

/-- From any index on, a round comes to every member. -/
theorem nextMember_eq_none_iff (topic : String) (start : Nat) :
    ctx.nextMember topic start = none ↔ ∀ m ∈ ctx.order, ¬ ctx.Subscribed topic m := by
  rw [nextMember, findSome?_eq_none_iff]
  constructor
  · intro h m hm hsub
    obtain ⟨j, hj⟩ := mem_iff_getElem?.1 (show m ∈ ctx.eligible from (mem_insertionSort _).2 hm)
    have hlt := (List.getElem?_eq_some_iff.1 hj).1
    generalize ctx.eligible.length = n at h hlt
    have hmod := Nat.mod_lt start (Nat.zero_lt_of_lt hlt)
    have hturn : (start + (j + (n - start % n)) % n) % n = j := by
      have hsum : start + (j + (n - start % n)) = j + n * (start / n + 1) := by
        rw [Nat.mul_add_one]
        have := Nat.div_add_mod start n
        omega
      rw [Nat.add_mod_mod, hsum, Nat.add_mul_mod_self_left, Nat.mod_eq_of_lt hlt]
    have := h _ (mem_range.2 (Nat.mod_lt (j + (n - start % n)) (Nat.zero_lt_of_lt hlt)))
    simp [hturn, hj, hsub] at this
  · intro h k _
    rw [map_eq_none_iff, Option.filter_eq_none_iff]
    intro m hm
    exact mt of_decide_eq_true (h m ((mem_insertionSort _).1 (mem_of_getElem? hm)))

/-- Every partition that is left is decided once and in order: a subscriber of its topic gets it,
and nobody only where there is none. -/
theorem given_to_subscriber (rest : List (String × Int)) (start : Nat) (loads : String → Nat) :
    (ctx.given rest start loads).map (·.1) = rest ∧ ∀ x ∈ ctx.given rest start loads,
      (∀ m ∈ x.2.1, ctx.Subscribed x.1.1 m) ∧
      (x.2.1 = none ↔ ∀ m ∈ ctx.order, ¬ ctx.Subscribed x.1.1 m) := by
  induction rest generalizing start loads with
  | nil => exact ⟨rfl, forall_mem_nil _⟩
  | cons tp rest ih =>
    rw [given]
    split
    case h_1 i member hnext =>
      obtain ⟨k, -, hk⟩ := exists_of_findSome?_eq_some hnext
      obtain ⟨m, hm, heq⟩ := map_eq_some_iff.1 hk
      cases heq
      refine ⟨congrArg (tp :: ·) (ih _ _).1, forall_mem_cons.2 ⟨⟨?_, ?_⟩, (ih _ _).2⟩⟩
      · exact fun _ h => some.inj h ▸ of_decide_eq_true (Option.filter_eq_some_iff.1 hm).2
      · rw [← nextMember_eq_none_iff tp.1 start, hnext]
        exact iff_of_false (some_ne_none _) (some_ne_none _)
    case h_2 hnext =>
      refine ⟨congrArg (tp :: ·) (ih _ _).1, forall_mem_cons.2 ⟨⟨?_, ?_⟩, (ih _ _).2⟩⟩
      · exact fun _ h => by cases h
      · exact iff_of_true rfl ((nextMember_eq_none_iff tp.1 start).1 hnext)

/-- Each of the next `n` members has no more partitions than those behind it, and at most one more than
those in front. -/
def Ascending (loads : String → Nat) : List String → List String → Nat → Prop
  | front, m :: behind, n + 1 => (∀ m' ∈ behind, loads m ≤ loads m') ∧
    (∀ m' ∈ front, loads m ≤ loads m' + 1) ∧ Ascending loads (front ++ [m]) behind n
  | _, _, _ => True

end AssignmentContext

end

end ChronikStream
