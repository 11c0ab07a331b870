import ChronikStream.Lib.Slots
import Mathlib.Data.Option.Basic

/-!
# Runs of guarded machines

`Reaches M ok` are the states reached by any order of enabled actions each of which meets the
condition `ok` in the state it is taken in. `Reaches.invariant` is the only induction over runs;
`Machine.runWith` executes a list of actions.
-/

/-- A deterministic machine with partially enabled actions. -/
structure Machine (σ α : Type*) where
  init : σ
  step : σ → α → Option σ

namespace Machine

open Option

variable {σ α : Type*} {M : Machine σ α} {ok : σ → α → Prop} {s s' : σ} {as : List α}

def Always (_ : σ) (_ : α) : Prop := True

instance : DecidableRel (Always : σ → α → Prop) := fun _ _ => .isTrue trivial

/-- The states reached by steps that all meet `ok`. -/
inductive Reaches (M : Machine σ α) (ok : σ → α → Prop) : σ → Prop where
  | init : Reaches M ok M.init
  | step {s s' : σ} (a : α) : Reaches M ok s → ok s a → M.step s a = some s' → Reaches M ok s'

/-- A step behind a guard that was taken. -/
theorem of_guard {p : Prop} {_ : Decidable p} (h : (if p then some s else none) = some s') :
    p ∧ s = s' :=
  (ite_none_right_eq_some.1 h).imp_right some.inj

theorem of_not_guard {p : Prop} {_ : Decidable p} (h : (if p then none else some s) = some s') :
    ¬ p ∧ s = s' :=
  (ite_none_left_eq_some.1 h).imp_right some.inj

/-- A property of the initial state that every step meeting `ok` preserves holds in every state
reached by such steps. -/
theorem Reaches.invariant {I : σ → Prop} (hinit : I M.init)
    (hstep : ∀ s a s', I s → ok s a → M.step s a = some s' → I s') (h : Reaches M ok s) : I s := by
  induction h with
  | init => exact hinit
  | step a _ hok hs ih => exact hstep _ a _ ih hok hs

/-- Run a list of actions, checking the condition at each of them. -/
def runWith (M : Machine σ α) (ok : σ → α → Prop) [DecidableRel ok] : σ → List α → Option σ
  | s, [] => some s
  | s, a :: as => if ok s a then (M.step s a).bind fun s' => runWith M ok s' as else none

theorem runWith_always [DecidableRel ok] (h : M.runWith ok s as = some s') :
    M.runWith Always s as = some s' := by
  induction as generalizing s with
  | nil => exact h
  | cons a as ih =>
    rw [runWith] at h ⊢
    split at h
    · obtain ⟨t, ht, hrest⟩ := bind_eq_some_iff.1 h
      rw [ht]
      exact ih hrest
    · cases h

theorem runWith_filter_of_silent {silent : α → Bool}
    (hsilent : ∀ s a s', silent a = true → M.step s a = some s' → s' = s)
    (h : M.runWith Always s as = some s') : M.runWith Always s (as.filter fun a => !silent a) = some s' := by
  induction as generalizing s with
  | nil => exact h
  | cons a as ih =>
    obtain ⟨t, ht, hrest⟩ := bind_eq_some_iff.1 h
    cases ha : silent a with
    | true =>
      obtain rfl := hsilent s a t ha ht
      rw [List.filter_cons_of_neg (by simp [ha])]
      exact ih hrest
    | false =>
      rw [List.filter_cons_of_pos (by simp [ha]), runWith, ht]
      exact ih hrest

theorem Reaches.of_runWith [DecidableRel ok] (h : Reaches M ok s)
    (hrun : M.runWith ok s as = some s') : Reaches M ok s' := by
  induction as generalizing s with
  | nil =>
    cases hrun
    exact h
  | cons a as ih =>
    rw [runWith] at hrun
    split at hrun
    · obtain ⟨t, ht, hrest⟩ := bind_eq_some_iff.1 hrun
      exact ih (h.step a ‹_› ht) hrest
    · cases hrun

theorem exists_reaches_of_run (M : Machine σ α) (ok : σ → α → Prop) [DecidableRel ok] (as : List α)
    (p : σ → Prop) [DecidablePred p] (h : (M.runWith ok M.init as).any (p ·) = true) :
    ∃ s, Reaches M ok s ∧ p s := by
  cases hrun : M.runWith ok M.init as with rw [hrun] at h
  | none => cases h
  | some s => exact ⟨s, Reaches.init.of_runWith hrun, of_decide_eq_true h⟩

theorem exists_reaches_and (M : Machine σ α) (ok : σ → α → Prop) [DecidableRel ok] (as : List α)
    {p c : σ → Prop} [DecidablePred p] (h : (M.runWith ok M.init as).any (p ·) = true)
    (hc : ∀ s, Reaches M ok s → c s) : ∃ s, Reaches M ok s ∧ p s ∧ c s :=
  (exists_reaches_of_run M ok as p h).imp fun s hs => ⟨hs.1, hs.2, hc s hs.1⟩

end Machine
