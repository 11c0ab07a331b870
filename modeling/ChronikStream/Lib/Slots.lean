import Mathlib.Data.List.Basic

/-!
# One slot of a list

A machine that serves several requests at once keeps them in a list, and a step takes one of them and
puts its next phase in the same place. These lemmas cut the list at that place. A log or a queue gets
its next element behind the others; the first lemmas say what then holds of all.
-/

namespace List

variable {α : Type*} {a b : α} {xs : List α}

theorem mem_concat : b ∈ xs ++ [a] ↔ b ∈ xs ∨ b = a := by
  rw [mem_append, mem_singleton]

theorem forall_mem_concat {p : α → Prop} : (∀ x ∈ xs ++ [a], p x) ↔ (∀ x ∈ xs, p x) ∧ p a := by
  rw [forall_mem_append, forall_mem_singleton]

theorem pairwise_concat {R : α → α → Prop} :
    (xs ++ [a]).Pairwise R ↔ xs.Pairwise R ∧ ∀ x ∈ xs, R x a := by
  simp only [pairwise_append, pairwise_singleton, true_and, forall_mem_singleton]

theorem Pairwise.eq_or_of_getLast? {R : α → α → Prop} (h : xs.Pairwise R) (ha : xs.getLast? = some a)
    (hb : b ∈ xs) : b = a ∨ R b a := by
  obtain ⟨init, rfl⟩ := getLast?_eq_some_iff.1 ha
  rcases mem_concat.1 hb with hb | hb
  · exact .inr ((pairwise_concat.1 h).2 b hb)
  · exact .inl hb

end List

namespace ChronikStream.Slots

variable {α : Type*}

/-- An element in its place among the others, which stay when it is replaced or taken out. -/
theorem exists_split (h : l[i]? = some x) :
    ∃ before after, l = before ++ x :: after ∧ l.take i = before ∧
      (∀ y, l.set i y = before ++ y :: after) ∧ l.eraseIdx i = before ++ after := by
  obtain ⟨hi, rfl⟩ := List.getElem?_eq_some_iff.1 h
  refine ⟨l.take i, l.drop (i + 1), ?_, rfl, fun y => ?_, ?_⟩
  · rw [← List.drop_eq_getElem_cons hi, List.take_append_drop]
  · rw [List.set_eq_take_append_cons_drop, if_pos hi]
  · exact List.eraseIdx_eq_take_drop_succ ..

theorem mem_of_mem_others (h : z ∈ before ++ after) : z ∈ before ++ x :: after := by
  rcases List.mem_append.1 h with h | h
  · exact List.mem_append_left _ h
  · exact List.mem_append_right _ (.tail _ h)

theorem forall_replace {P : α → Prop} (hothers : ∀ z ∈ before ++ after, P z) (hy : P y) :
    ∀ z ∈ before ++ y :: after, P z := by
  rw [List.forall_mem_append] at hothers
  rw [List.forall_mem_append, List.forall_mem_cons]
  exact ⟨hothers.1, hy, hothers.2⟩

theorem forall_of_replace {P : α → Prop} (h : ∀ z ∈ before ++ x :: after, P z) (hy : P y) :
    ∀ z ∈ before ++ y :: after, P z :=
  forall_replace (fun z hz => h z (mem_of_mem_others hz)) hy

/-- A relation between any two is kept where what is put in the place has it with all the others. -/
theorem pairwise_replace (h : (before ++ x :: after).Pairwise R)
    (hbefore : ∀ z, R z x → R z y) (hafter : ∀ z, R x z → R y z) :
    (before ++ y :: after).Pairwise R := by
  obtain ⟨hfront, hback, hcross⟩ := List.pairwise_append.1 h
  obtain ⟨hx, hback⟩ := List.pairwise_cons.1 hback
  refine List.pairwise_append.2 ⟨hfront, List.pairwise_cons.2 ⟨?_, hback⟩, ?_⟩
  · exact fun z hz => hafter z (hx z hz)
  · intro z hz w hw
    rcases List.mem_cons.1 hw with rfl | hw
    · exact hbefore z (hcross z hz x (.head _))
    · exact hcross z hz w (.tail _ hw)

end ChronikStream.Slots
