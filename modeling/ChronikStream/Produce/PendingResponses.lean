import ChronikStream.Lib.Run
import Mathlib.Data.List.Nodup

/-!
# Every registered response is answered once

The buckets of pending responses of `response_pipeline.rs`, one for each partition; a section under
the guard of a bucket is a step. An empty bucket is removed in a step of its own, with whatever was
registered in between (`sender_dropped`). Where it is still empty, every sender gets its one answer
(`answered_once`).
-/

namespace ChronikStream

open Machine Option

/-- A registered response, by the offsets of its batch. -/
structure PendingResponse where
  base : Int
  last : Int
  registeredAt : Nat
  deriving DecidableEq

/-- What the answers differ in of a `ProduceResponsePartition`. -/
structure PartitionAnswer where
  errorCode : Int
  baseOffset : Int
  errorMessage : Option String
  deriving DecidableEq

namespace ResponsePipeline

/-- What a bucket is told: commits, failed ones with their error, and cleanup passes with the stale
offsets. -/
inductive Event where
  | register (r : PendingResponse)
  | notify (minOffset maxOffset : Int) (error : Option String)
  | expire (stale : List Int)
  deriving DecidableEq

/-- The answer that a pending response is sent. -/
def Event.answer (r : PendingResponse) : Event → Option PartitionAnswer
  | .register _ => none
  | .notify minOffset maxOffset error =>
    if minOffset ≤ r.base ∧ r.base ≤ maxOffset ∧ r.last ≤ maxOffset then
      some (error.elim ⟨0, r.base, none⟩ fun message => ⟨1, -1, some message⟩)
    else none
  | .expire stale => if r.base ∈ stale then some ⟨7, -1, some "WAL fsync timeout"⟩ else none

def Event.base? : Event → Option Int
  | .register r => some r.base
  | _ => none

/-- The bucket, if there is one, the removals to come, and what the cleanup pass has collected. What
was sent and what happened, newest first, is ghost state. -/
structure Bucket where
  pending : Option (List PendingResponse)
  removals : Nat
  stale : List Int
  sent : List (PendingResponse × PartitionAnswer)
  trace : List Event

inductive Action where
  | register (r : PendingResponse)
  | notify (minOffset maxOffset : Int) (error : Option String)
  | collect (now : Nat)
  | expire
  | remove

namespace Bucket

def responses (s : Bucket) : List PendingResponse := s.pending.getD []

/-- The section that takes out what the event answers. -/
def deliver (s : Bucket) (e : Event) : Bucket :=
  let rest := s.responses.filter fun r => (e.answer r).isNone
  { s with
    pending := s.pending.map fun _ => rest
    removals := if s.pending.isSome ∧ rest = [] then s.removals + 1 else s.removals
    sent := s.sent ++ s.responses.filterMap fun r => (e.answer r).map (r, ·)
    trace := e :: s.trace }

/-- A notification is of a range, and only one cleanup pass runs at a time. -/
def step (timeout : Nat) (s : Bucket) : Action → Option Bucket
  | .register r =>
    some { s with
      pending := some (s.responses.filter (·.base ≠ r.base) ++ [r])
      trace := .register r :: s.trace }
  | .notify minOffset maxOffset error =>
    if minOffset ≤ maxOffset then some (s.deliver (.notify minOffset maxOffset error)) else none
  | .collect now =>
    if s.stale = [] then
      some { s with
        stale := (s.responses.filter (timeout < now - ·.registeredAt)).map (·.base) }
    else none
  | .expire =>
    if s.stale = [] then none else some { s.deliver (.expire s.stale) with stale := [] }
  | .remove =>
    if s.removals = 0 then none
    else some { s with pending := none, removals := s.removals - 1 }

/-- A batch has base offsets of its own. -/
def Distinct (s : Bucket) : Action → Prop
  | .register r => ∀ e ∈ s.trace, e.base? ≠ some r.base
  | _ => True

/-- A bucket is removed while it is empty. -/
def StillEmpty (s : Bucket) : Action → Prop
  | .remove => s.responses = []
  | _ => True

end Bucket

/-- The pipeline: a bucket for each topic and partition. -/
def machine (κ : Type) [DecidableEq κ] (timeout : Nat) : Machine (κ → Bucket) (κ × Action) where
  init _ := ⟨none, 0, [], [], []⟩
  step s a := ((s a.1).step timeout a.2).map (Function.update s a.1)

/-- The answer that is due: that of the first event after the registration that has one. -/
def outcome (r : PendingResponse) : List Event → Option PartitionAnswer
  | [] => none
  | e :: earlier => if .register r ∈ earlier then (outcome r earlier).or (e.answer r) else none

theorem outcome_of_not_mem (h : .register r ∉ trace) : outcome r trace = none := by
  cases trace with
  | nil => rfl
  | cons e t => exact if_neg fun hr => h (.tail _ hr)

theorem outcome_cons : outcome r (e :: earlier) =
    (outcome r earlier).or (if .register r ∈ earlier then e.answer r else none) := by
  rw [outcome]
  split
  · rfl
  · next h => rw [outcome_of_not_mem h, or_none]

namespace Bucket

/-- What was sent to a sender. -/
def answers (s : Bucket) (r : PendingResponse) : List PartitionAnswer :=
  (s.sent.filter (·.1 = r)).map (·.2)

/-- The responses in the bucket are those without an answer, and the others were sent theirs. -/
structure Inv (s : Bucket) : Prop where
  nodup : s.responses.Nodup
  waiting : ∀ r, r ∈ s.responses ↔ .register r ∈ s.trace ∧ outcome r s.trace = none
  answered : ∀ r, s.answers r = (outcome r s.trace).toList

theorem answers_filterMap {f : PendingResponse → Option PartitionAnswer} (h : List.Nodup rs) :
    ((rs.filterMap fun x => (f x).map (x, ·)).filter (·.1 = r)).map (·.2) =
      if r ∈ rs then (f r).toList else [] := by
  induction rs with
  | nil => rfl
  | cons x rs ih =>
    cases hf : f x <;> by_cases hxr : x = r <;> grind

theorem Inv.deliver (h : Inv s) (he : e.base? = none) : (s.deliver e).Inv := by
  have hresponses : (s.deliver e).responses = s.responses.filter fun r => (e.answer r).isNone := by
    rw [Bucket.deliver, responses, responses]
    cases s.pending <;> rfl
  have hother : ∀ r, .register r ≠ e := by
    rintro r rfl
    cases he
  refine ⟨hresponses ▸ h.nodup.filter _, fun r => ?_, fun r => ?_⟩
  · rw [hresponses, List.mem_filter, h.waiting]
    simp only [Bucket.deliver, List.mem_cons, hother, false_or, outcome_cons]
    cases outcome r s.trace <;> simp +contextual
  · have hsent := answers_filterMap (r := r) (f := (e.answer ·)) h.nodup
    have hwaiting := h.waiting r
    have hanswered := h.answered r
    simp only [answers, Bucket.deliver, List.filter_append, List.map_append, outcome_cons] at hanswered ⊢
    cases ho : outcome r s.trace <;> grind

theorem Inv.step (h : Inv s) (hd : s.Distinct a) (he : s.StillEmpty a)
    (hs : s.step timeout a = some s') : s'.Inv := by
  cases a with
  | register r =>
    cases hs
    have hnew : .register r ∉ s.trace := fun hr => hd _ hr rfl
    have hkept : s.responses.filter (·.base ≠ r.base) = s.responses := by
      simp only [List.filter_eq_self, decide_eq_true_eq]
      exact fun x hx hbase => hd _ ((h.waiting x).1 hx).1 (congrArg some hbase)
    have hout := outcome_of_not_mem hnew
    refine ⟨?_, fun x => ?_, fun x => ?_⟩
    · have := h.nodup
      simp only [responses, getD_some] at *
      grind
    · have := h.waiting x
      simp only [responses, getD_some, outcome_cons, Event.answer] at *
      grind
    · have := h.answered x
      simpa [answers, outcome_cons, Event.answer] using this
  | notify minOffset maxOffset error =>
    simp only [Bucket.step, ite_none_right_eq_some, some.injEq] at hs
    exact hs.2 ▸ h.deliver rfl
  | collect now =>
    simp only [Bucket.step, ite_none_right_eq_some, some.injEq] at hs
    exact hs.2 ▸ { h with }
  | expire =>
    simp only [Bucket.step, ite_none_left_eq_some, some.injEq] at hs
    have hdel := h.deliver (e := .expire s.stale) rfl
    exact hs.2 ▸ ⟨hdel.nodup, hdel.waiting, hdel.answered⟩
  | remove =>
    simp only [Bucket.step, ite_none_left_eq_some, some.injEq] at hs
    have hempty : s.responses = [] := he
    have hwaiting := h.waiting
    rw [hempty] at hwaiting
    exact hs.2 ▸ ⟨.nil, hwaiting, h.answered⟩

end Bucket

/-- Where buckets are removed while empty and base offsets are distinct, every sender was sent the
one answer due to it or waits in its bucket, and a cleanup pass answers it when stale. -/
theorem answered_once [DecidableEq κ] (hs : Reaches (machine κ timeout)
      (fun s a => (s a.1).Distinct a.2 ∧ (s a.1).StillEmpty a.2) s) (key : κ) (r : PendingResponse) :
    (s key).answers r = (outcome r (s key).trace).toList ∧
      (.register r ∈ (s key).trace → outcome r (s key).trace = none →
        r ∈ (s key).responses ∧ ∀ now s', timeout < now - r.registeredAt →
          (((s key).step timeout (.collect now)).bind (·.step timeout .expire)) = some s' →
            s'.answers r = [⟨7, -1, some "WAL fsync timeout"⟩]) := by
  have hinv : ∀ key, (s key).Inv := by
    refine hs.invariant (I := fun s => ∀ key, (s key).Inv)
      (fun key => ⟨.nil, by simp [machine, Bucket.responses], fun r => rfl⟩) ?_
    intro s a s' h ha hs key
    obtain ⟨b, hb, rfl⟩ := map_eq_some_iff.1 hs
    rw [Function.update_apply]
    split
    · exact (h a.1).step ha.1 ha.2 hb
    · exact h key
  have h := hinv key
  refine ⟨h.answered r, fun hreg hnone => ?_⟩
  have hr := (h.waiting r).2 ⟨hreg, hnone⟩
  refine ⟨hr, fun now s' hstale hpass => ?_⟩
  obtain ⟨s₁, hcollect, hexpire⟩ := bind_eq_some_iff.1 hpass
  have hfound := h.step (a := .collect now) trivial trivial hcollect
  have hanswered := (hfound.step (a := .expire) trivial trivial hexpire).answered r
  simp only [Bucket.step, ite_none_right_eq_some, some.injEq] at hcollect
  simp only [Bucket.step, ite_none_left_eq_some, some.injEq] at hexpire
  obtain ⟨-, rfl⟩ := hcollect
  obtain ⟨-, rfl⟩ := hexpire
  have hmem : r.base ∈ ((s key).responses.filter (timeout < now - ·.registeredAt)).map (·.base) :=
    List.mem_map_of_mem (List.mem_filter.2 ⟨hr, decide_eq_true hstale⟩)
  simpa [Bucket.deliver, outcome_cons, hnone, hreg, Event.answer, hmem] using hanswered

instance : DecidableRel Bucket.Distinct := fun _ _ => by
  unfold Bucket.Distinct
  split <;> infer_instance

instance : DecidableRel Bucket.StillEmpty := fun _ _ => by
  unfold Bucket.StillEmpty
  split <;> infer_instance

/-- A commit covers the first batch, a failed one the second, and the third is still pending. -/
theorem answered_once_twoBatches : ∃ s,
    Reaches (machine Unit 30) (fun s a => (s a.1).Distinct a.2 ∧ (s a.1).StillEmpty a.2) s ∧
      (s ()).answers ⟨0, 4, 1⟩ = [⟨0, 0, none⟩] ∧
      (s ()).answers ⟨5, 9, 2⟩ = [⟨1, -1, some "disk full"⟩] := by
  obtain ⟨s, hreach, hfirst, hsecond⟩ := exists_reaches_of_run (machine Unit 30)
    (fun s a => (s a.1).Distinct a.2 ∧ (s a.1).StillEmpty a.2)
    ([.register ⟨0, 4, 1⟩, .notify 0 4 none, .remove, .register ⟨5, 9, 2⟩, .register ⟨10, 14, 2⟩,
      .notify 5 9 (some "disk full")].map ((), ·))
    (fun s => outcome ⟨0, 4, 1⟩ (s ()).trace = some ⟨0, 0, none⟩ ∧
      outcome ⟨5, 9, 2⟩ (s ()).trace = some ⟨1, -1, some "disk full"⟩) (by decide)
  have hanswers := answered_once hreach ()
  exact ⟨s, hreach, (hanswers _).1.trans (by rw [hfirst]; rfl),
    (hanswers _).1.trans (by rw [hsecond]; rfl)⟩

/-- A batch is registered between the notification that empties the bucket and the removal: its
sender is gone. -/
theorem sender_dropped : ¬ ∀ s, Reaches (machine Unit 30) (fun s a => (s a.1).Distinct a.2) s →
    ∀ r, (s ()).answers r = (outcome r (s ()).trace).toList := by
  intro h
  obtain ⟨s, hreach, hnone, hdue⟩ := exists_reaches_of_run (machine Unit 30) (fun s a => (s a.1).Distinct a.2)
    ([.register ⟨0, 4, 1⟩, .notify 0 4 none, .register ⟨5, 9, 2⟩, .remove, .notify 5 9 none].map
      ((), ·))
    (fun s => (s ()).answers ⟨5, 9, 2⟩ = [] ∧ outcome ⟨5, 9, 2⟩ (s ()).trace ≠ none) (by decide)
  have := h s hreach ⟨5, 9, 2⟩
  rw [hnone] at this
  exact hdue (toList_eq_nil_iff.1 this.symm)

end ResponsePipeline

end ChronikStream
