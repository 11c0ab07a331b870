import ChronikStream.Raft.MessageLoop

/-!
# Writes before promises

The persisted messages of a `Ready` may be sent, and the `Ready` advanced, only after its entries
and hard state are on disk; `PersistsFirst` says this of a trace. The loop logs a failed write and
goes on, so it keeps the rule exactly if no write of a `Ready` without a snapshot fails
(`persistsFirst_iff`).
-/

namespace ChronikStream.Raft

open Iteration (persist applyEntries processReady applyConfChanges effects)
open List

section
variable {μ : Type}

/-- The `Ready` that was taken last, with the effects since then. -/
def sinceReady (trace : List (Effect μ)) : Option (Ready μ × List (Effect μ)) :=
  trace.foldl (fun current x =>
    match x with
    | .ready rd => some (rd, [])
    | x => current.map fun (rd, t) => (rd, t ++ [x])) none

/-- The entries and the hard state of the `Ready` were written, as far as it has any. -/
structure Written (rd : Ready μ) (t : List (Effect μ)) : Prop where
  entries : rd.entries = [] ∨ .appendEntries rd.entries true ∈ t
  hs : ∀ hs ∈ rd.hs, .persistHardState hs true ∈ t

def sent (trace : List (Effect μ)) : List μ :=
  trace.filterMap fun
    | .send m => some m
    | _ => none

/-- Nothing is promised for the `Ready`: only messages that need no write were sent, and it was not
advanced. -/
structure Unpromised (rd : Ready μ) (t : List (Effect μ)) : Prop where
  sent : sent t <+: rd.messages
  advance : ∀ light, .advance light ∉ t

/-- At every moment the current `Ready` is written or nothing is promised for it. -/
def PersistsFirst (trace : List (Effect μ)) : Prop :=
  ∀ p, p <+: trace → ∀ rd t, sinceReady p = some (rd, t) → Written rd t ∨ Unpromised rd t

/-- The writes of the iteration's `Ready` succeed; one with a snapshot does not come to them. -/
def Iteration.WritesSucceed (it : Iteration μ) : Prop :=
  ∀ rd ∈ it.ready, rd.snapshot.isEmpty →
    (rd.entries = [] ∨ it.appended = true) ∧ (rd.hs = none ∨ it.persisted = true)

/-! ## Splitting a trace into its `Ready`s -/

variable {it : Iteration μ} {its : List (Iteration μ)} {t : List (Effect μ)} {rd : Ready μ}

/-- A trace that is empty or starts with a `Ready`. -/
def StartsWithReady : List (Effect μ) → Prop
  | [] => True
  | .ready _ :: _ => True
  | _ => False

theorem sinceReady_append_ready (t t' : List (Effect μ)) (rd : Ready μ) :
    sinceReady (t ++ .ready rd :: t') = sinceReady (.ready rd :: t') := by
  rw [sinceReady, foldl_append]
  rfl

theorem sinceReady_ready_cons (h : ∀ rd', .ready rd' ∉ t) :
    sinceReady (.ready rd :: t) = some (rd, t) := by
  induction t using List.reverseRecOn with
  | nil => rfl
  | append_singleton t x ih =>
    have ht : ∀ rd', .ready rd' ∉ t := fun rd' hmem => h rd' (mem_append_left _ hmem)
    have hx : ∀ rd', x ≠ .ready rd' := by
      rintro rd' rfl
      exact h rd' mem_concat_self
    have hprev := ih ht
    rw [sinceReady] at hprev ⊢
    rw [← cons_append, foldl_append, hprev]
    cases x with
    | ready rd' => exact absurd rfl (hx rd')
    | _ => rfl

theorem startsWithReady_effects (it : Iteration μ) : StartsWithReady it.effects := by
  rw [effects]
  cases it.ready <;> trivial

theorem startsWithReady_append (h : StartsWithReady t) (h' : StartsWithReady t') :
    StartsWithReady (t ++ t') := by
  cases t with
  | nil => exact h'
  | cons x t =>
  cases x with
  | ready _ => trivial
  | _ => exact h.elim

theorem startsWithReady_messageLoop (its : List (Iteration μ)) : StartsWithReady (messageLoop its) := by
  induction its with
  | nil => trivial
  | cons it its ih => exact startsWithReady_append (startsWithReady_effects it) ih

theorem persistsFirst_append (h : StartsWithReady t') :
    PersistsFirst (t ++ t') ↔ PersistsFirst t ∧ PersistsFirst t' := by
  refine ⟨fun hall => ⟨fun p hp => ?_, fun p hp => ?_⟩, fun ⟨hfirst, hrest⟩ p hp => ?_⟩
  · exact hall p (hp.trans (prefix_append _ _))
  · intro rd q hq
    cases p with
    | nil => cases hq
    | cons x p =>
    obtain ⟨s, rfl⟩ := hp
    cases x with
    | ready rd' =>
      refine hall (t ++ .ready rd' :: p) ?_ rd q (by rwa [sinceReady_append_ready])
      rw [prefix_append_right_inj]
      exact prefix_append _ _
    | _ => exact h.elim
  · obtain ⟨s, hs⟩ := hp
    rcases append_eq_append_iff.1 hs with ⟨q, rfl, -⟩ | ⟨q, rfl, rfl⟩
    · exact hfirst p (prefix_append _ _)
    cases q with
    | nil => exact hfirst _ (by simp)
    | cons x q =>
    cases x with
    | ready rd' =>
      rw [sinceReady_append_ready]
      exact hrest _ (prefix_append _ _)
    | _ => exact h.elim

theorem persistsFirst_ready_cons (h : ∀ rd', .ready rd' ∉ t) :
    PersistsFirst (.ready rd :: t) ↔ ∀ p, p <+: t → Written rd p ∨ Unpromised rd p := by
  have hsince : ∀ p, p <+: t → sinceReady (.ready rd :: p) = some (rd, p) := fun p hp =>
    sinceReady_ready_cons fun rd' hmem => h rd' (hp.subset hmem)
  constructor
  · intro hall p hp
    exact hall (.ready rd :: p) ((prefix_cons_inj _).2 hp) rd p (hsince p hp)
  · intro hall p hp rd' q hq
    cases p with
    | nil => cases hq
    | cons x p =>
    obtain ⟨rfl, hpt⟩ := cons_prefix_cons.1 hp
    rw [hsince p hpt] at hq
    obtain ⟨rfl, rfl⟩ := Prod.mk.inj (Option.some.inj hq)
    exact hall p hpt

/-! ## One iteration -/

@[simp]
theorem sent_append (t t' : List (Effect μ)) : sent (t ++ t') = sent t ++ sent t' :=
  filterMap_append

@[simp]
theorem sent_map_send (ms : List μ) : sent (ms.map Effect.send) = ms := by
  rw [sent, filterMap_map]
  exact filterMap_some

theorem Unpromised.of_isPrefix (h : Unpromised rd t') (ht : t <+: t') : Unpromised rd t where
  sent := (ht.filterMap _).trans h.sent
  advance light hmem := h.advance light (ht.subset hmem)

theorem Written.of_isPrefix (h : Written rd t) (ht : t <+: t') : Written rd t' where
  entries := h.entries.imp_right fun hmem => ht.subset hmem
  hs hs hmem := ht.subset (h.hs hs hmem)

/-- The part of an iteration without a snapshot that comes before its promises. -/
def Iteration.beforePromises (it : Iteration μ) (rd : Ready μ) : List (Effect μ) :=
  rd.messages.map .send ++ it.applyConfChanges rd ++ it.persist rd

theorem sent_applyConfChanges (rd : Ready μ) : sent (it.applyConfChanges rd) = [] := by
  simp [sent, applyConfChanges, filterMap_map]

theorem sent_persist (rd : Ready μ) : sent (it.persist rd) = [] := by
  rw [persist]
  split <;> cases rd.hs <;> rfl

theorem sent_applySnapshot (snapshot : Snapshot) : sent (it.applySnapshot snapshot) = [] := by
  rw [Iteration.applySnapshot]
  split
  case isTrue => rfl
  case isFalse =>
  split
  case isTrue => rfl
  case isFalse => split <;> rfl

theorem quiet_beforePromises (rd : Ready μ) : ∀ x ∈ it.beforePromises rd, x.Quiet := by
  intro x hx
  rcases mem_append.1 hx with hx | hx
  · rcases mem_append.1 hx with hx | hx
    · exact quiet_send _ _ hx
    · exact quiet_applyConfChanges rd _ hx
  · exact quiet_persist rd _ hx

theorem internal_of_snapshot (rd : Ready μ) :
    ∀ x ∈ rd.messages.map Effect.send ++ it.applySnapshot rd.snapshot, x.Internal := by
  intro x hx
  rcases mem_append.1 hx with hx | hx
  · exact (quiet_send _ _ hx).1
  · exact internal_applySnapshot _ _ hx

theorem unpromised_beforePromises (it : Iteration μ) (rd : Ready μ) :
    Unpromised rd (it.beforePromises rd) where
  sent := by
    rw [Iteration.beforePromises, sent_append, sent_append, sent_applyConfChanges, sent_persist]
    simp
  advance light hmem := (quiet_beforePromises rd _ hmem).1

theorem unpromised_of_snapshot (it : Iteration μ) (rd : Ready μ) :
    Unpromised rd (rd.messages.map .send ++ it.applySnapshot rd.snapshot) where
  sent := by
    rw [sent_append, sent_applySnapshot]
    simp
  advance light hmem := internal_of_snapshot rd _ hmem

/-- Before its promises the `Ready` is written exactly if the writes it needs succeed. -/
theorem written_beforePromises_iff (it : Iteration μ) (rd : Ready μ) :
    Written rd (it.beforePromises rd) ↔
      (rd.entries = [] ∨ it.appended = true) ∧ (rd.hs = none ∨ it.persisted = true) := by
  have happend : (rd.entries = [] ∨ .appendEntries rd.entries true ∈ it.beforePromises rd) ↔
      (rd.entries = [] ∨ it.appended = true) := by
    refine or_congr_right' fun hne => ?_
    simp [Iteration.beforePromises, applyConfChanges, persist, hne]
  have hpersist : (∀ hs ∈ rd.hs, .persistHardState hs true ∈ it.beforePromises rd) ↔
      (rd.hs = none ∨ it.persisted = true) := by
    cases hhs : rd.hs with
    | none => simp
    | some hs =>
      simp [Iteration.beforePromises, applyConfChanges, persist, hhs]
  rw [← happend, ← hpersist]
  exact ⟨fun h => ⟨h.entries, h.hs⟩, fun h => ⟨h.1, h.2⟩⟩

theorem written_of_promises {ms : List μ}
    (h : Written rd (t ++ (ms.map .send ++ [.advance light]))) : Written rd t where
  entries := by simpa using h.entries
  hs hs hmem := by simpa using h.hs hs hmem

theorem persistsFirst_processReady (it : Iteration μ) (rd : Ready μ) :
    PersistsFirst (it.processReady rd) ↔ (rd.snapshot.isEmpty →
      (rd.entries = [] ∨ it.appended = true) ∧ (rd.hs = none ∨ it.persisted = true)) := by
  by_cases hempty : rd.snapshot.isEmpty
  case neg =>
    refine iff_of_true ?_ fun h => absurd h hempty
    rw [processReady, if_pos hempty, persistsFirst_ready_cons]
    · exact fun p hp => .inr ((unpromised_of_snapshot it rd).of_isPrefix hp)
    · exact fun rd' hmem => internal_of_snapshot rd _ hmem
  case pos =>
  -- what is not yet promised, the promises, and the rest of the iteration
  have heq : it.processReady rd = .ready rd :: (it.beforePromises rd ++
      (rd.persistedMessages.map .send ++ .advance it.light :: applyEntries rd)) := by
    rw [processReady, if_neg (not_not.2 hempty), Iteration.beforePromises]
    simp only [append_assoc]
  have hready : ∀ rd', .ready rd' ∉ it.beforePromises rd ++
      (rd.persistedMessages.map .send ++ .advance it.light :: applyEntries rd) := by
    intro rd' hmem
    have happly : .ready rd' ∉ applyEntries rd := by
      rw [applyEntries]
      split <;> simp
    rcases mem_append.1 hmem with hmem | hmem
    · exact (quiet_beforePromises rd _ hmem).1
    · simp [happly] at hmem
  rw [heq, persistsFirst_ready_cons hready, ← written_beforePromises_iff]
  refine ⟨fun h _ => ?_, fun h p hp => ?_⟩
  · -- what ends with `advance` is promised, so it is written
    have hpre : it.beforePromises rd ++ (rd.persistedMessages.map .send ++ [.advance it.light]) <+:
        it.beforePromises rd ++
          (rd.persistedMessages.map .send ++ .advance it.light :: applyEntries rd) :=
      ⟨applyEntries rd, by simp⟩
    refine written_of_promises ((h _ hpre).resolve_right fun hun => ?_)
    exact hun.advance it.light (by simp)
  · obtain ⟨s, hs⟩ := hp
    rcases append_eq_append_iff.1 hs with ⟨q, hq, -⟩ | ⟨q, rfl, -⟩
    · exact .inr ((unpromised_beforePromises it rd).of_isPrefix ⟨q, hq.symm⟩)
    · exact .inl ((h hempty).of_isPrefix (prefix_append _ _))

theorem persistsFirst_effects (it : Iteration μ) : PersistsFirst it.effects ↔ it.WritesSucceed := by
  rw [effects, Iteration.WritesSucceed]
  cases it.ready with
  | none =>
    refine iff_of_true (fun p hp rd t h => ?_) fun rd hrd => (by cases hrd)
    obtain rfl := prefix_nil.1 hp
    cases h
  | some rd =>
    refine (persistsFirst_processReady it rd).trans ⟨fun h rd' hrd => ?_, fun h => h rd rfl⟩
    obtain rfl := Option.some.inj hrd
    exact h

/-- The loop promises only what is written exactly if no write that it comes to fails. -/
theorem persistsFirst_iff (its : List (Iteration μ)) :
    PersistsFirst (messageLoop its) ↔ ∀ it ∈ its, it.WritesSucceed := by
  induction its with
  | nil =>
    refine iff_of_true (fun p hp rd t h => ?_) fun it hit => (by cases hit)
    obtain rfl := prefix_nil.1 hp
    cases h
  | cons it its ih =>
    have hcons : messageLoop (it :: its) = it.effects ++ messageLoop its := flatMap_cons
    rw [hcons, persistsFirst_append (startsWithReady_messageLoop its), persistsFirst_effects, ih]
    exact forall_mem_cons.symm

/-- A response is sent and the `Ready` is advanced although the entry it acknowledges was not
written. -/
theorem response_sent_without_write :
    ¬ ∀ its : List (Iteration Unit), PersistsFirst (messageLoop its) := by
  let entry : Entry := ⟨0, 1, 1, [7], [], false⟩
  let ready : Ready Unit := ⟨[], ⟨⟨0, 0⟩, []⟩, [], [entry], none, [()]⟩
  let it : Iteration Unit := ⟨some ready, ⟨[], []⟩, true, false, true, none, fun _ => true⟩
  intro h
  rcases h [it] _ (prefix_refl _) ready _ rfl with hwritten | hun
  · have hentries := hwritten.entries
    simp [ready, it] at hentries
  · exact absurd hun.sent (by decide)

end

end ChronikStream.Raft
