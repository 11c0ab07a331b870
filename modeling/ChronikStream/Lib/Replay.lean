import ChronikStream.Lib.Slots
import Mathlib.Data.List.Pairwise
import Mathlib.Tactic.Common

/-!
# Logs whose events are applied out of order

The state is what a replay of the log gives as soon as every event is applied, if no event was
applied before an earlier one that it does not commute with (`Deferred.eq_replay`). Updates that are
local to disjoint sets of cells commute (`LocalTo.read_comm`).
-/

namespace Replay

open List

section
variable {σ κ : Type*} {β : κ → Type*} {read : (c : κ) → σ → β c} {F : κ → Prop} {f : σ → σ}

/-- The update changes the cells in `F` only, and depends on no others. -/
structure LocalTo (read : (c : κ) → σ → β c) (F : κ → Prop) (f : σ → σ) : Prop where
  frame : ∀ s c, ¬ F c → read c (f s) = read c s
  depends : ∀ s s', (∀ c, F c → read c s = read c s') → ∀ c, F c → read c (f s) = read c (f s')

/-- Where only the first update changes a cell, the second makes no difference to it. -/
theorem LocalTo.read_of_disjoint (hf : LocalTo read F f) (hg : LocalTo read G g)
    (h : ∀ c, ¬ (F c ∧ G c)) (s : σ) (hc : F c) : read c (f (g s)) = read c (g (f s)) := by
  have hG : ∀ c, F c → ¬ G c := fun c hF hG => h c ⟨hF, hG⟩
  rw [hg.frame (f s) c (hG c hc)]
  exact hf.depends _ _ (fun c' hc' => hg.frame s c' (hG c' hc')) c hc

theorem LocalTo.read_comm (hf : LocalTo read F f) (hg : LocalTo read G g) (h : ∀ c, ¬ (F c ∧ G c))
    (s : σ) (c : κ) : read c (f (g s)) = read c (g (f s)) := by
  by_cases hF : F c
  · exact hf.read_of_disjoint hg h s hF
  by_cases hG : G c
  · exact (hg.read_of_disjoint hf (fun c hc => h c hc.symm) s hG).symm
  · rw [hf.frame _ c hF, hg.frame _ c hG, hg.frame _ c hG, hf.frame _ c hF]

end

section
variable {σ ε : Type*} {act : σ → ε → σ} {s₀ s : σ} {log : List (ε × Bool)} {e : ε}

/-- The order of the two events makes no difference. -/
def Commute (act : σ → ε → σ) (e e' : ε) : Prop :=
  ∀ s, act (act s e) e' = act (act s e') e

def applied (log : List (ε × Bool)) : List ε := (log.filter (·.2)).map Prod.fst

/-- The state is that of the applied events in the order of the log, and an event that is not
applied commutes with every applied one behind it. -/
structure Deferred (act : σ → ε → σ) (s₀ : σ) (log : List (ε × Bool)) (s : σ) : Prop where
  eq : s = (applied log).foldl act s₀
  commute : log.Pairwise fun x y => x.2 = false → y.2 = true → Commute act x.1 y.1

theorem applied_append (log log' : List (ε × Bool)) :
    applied (log ++ log') = applied log ++ applied log' := by
  rw [applied, filter_append, map_append, applied, applied]

theorem foldl_comm {es : List ε} (h : ∀ e' ∈ es, Commute act e e') (s : σ) :
    es.foldl act (act s e) = act (es.foldl act s) e := by
  induction es generalizing s with
  | nil => rfl
  | cons e' es ih =>
    rw [foldl_cons, h e' (.head _) s]
    exact ih (fun x hx => h x (.tail _ hx)) _

theorem Deferred.append (h : Deferred act s₀ log s) (e : ε) :
    Deferred act s₀ (log ++ [(e, false)]) s where
  eq := by
    simpa [applied] using h.eq
  commute := by
    refine pairwise_concat.2 ⟨h.commute, fun x _ _ htrue => ?_⟩
    cases htrue

/-- An event may be applied if it commutes with those before it that are not. -/
theorem Deferred.apply (h : Deferred act s₀ (front ++ (e, false) :: back) s)
    (hfront : ∀ e', (e', false) ∈ front → Commute act e' e) :
    Deferred act s₀ (front ++ (e, true) :: back) (act s e) := by
  obtain ⟨hpairs, hmid, hcross⟩ := pairwise_append.1 h.commute
  obtain ⟨hbehind, hback⟩ := pairwise_cons.1 hmid
  constructor
  · have hcommute : ∀ e' ∈ applied back, Commute act e e' := by
      intro e' he'
      obtain ⟨⟨x, b⟩, hx, rfl⟩ := mem_map.1 he'
      obtain ⟨hx, rfl⟩ := mem_filter.1 hx
      exact hbehind _ hx rfl rfl
    have hbefore : applied (front ++ (e, false) :: back) = applied front ++ applied back :=
      applied_append _ _
    have hafter : applied (front ++ (e, true) :: back) = applied front ++ e :: applied back :=
      applied_append _ _
    rw [h.eq, hbefore, hafter, foldl_append, foldl_append]
    exact (foldl_comm hcommute _).symm
  · refine pairwise_append.2 ⟨hpairs, pairwise_cons.2 ⟨fun _ _ hfalse => ?_, hback⟩, ?_⟩
    · cases hfalse
    · intro x hx y hy hxfalse hytrue
      rcases mem_cons.1 hy with rfl | hy
      · obtain ⟨e', b⟩ := x
        obtain rfl : b = false := hxfalse
        exact hfront e' hx
      · exact hcross x hx y (.tail _ hy) hxfalse hytrue

/-- Once every event is applied the state is what a replay gives. -/
theorem Deferred.eq_replay (h : Deferred act s₀ log s) (hall : ∀ x ∈ log, x.2 = true) :
    s = (log.map Prod.fst).foldl act s₀ := by
  rw [h.eq, applied, filter_eq_self.2 hall]

end

end Replay
