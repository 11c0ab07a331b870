import ChronikStream.Lib.Bytes
import ChronikStream.Lib.OrderedMap
import Mathlib.Data.Fintype.Card
import Mathlib.Data.List.AList

/-!
# The quorum tracker of acks=all produces

`isr_ack_tracker.rs` for one partition: how far each node has reported, as a maximum that never goes
back, and the waits in the order of their offsets. A report or a new wait answers every wait whose
quorum it completes (`mem_registerWait_released`, `mem_recordAck_released`).
-/

namespace ChronikStream

open List OrderedMap

open Bytes (i64Min)

variable {ν τ : Type*}

/-- A registered wait. `tx` stands for the channel its answer goes to. -/
structure WaitEntry (τ : Type*) where
  tx : τ
  quorumSize : Nat
  registeredAt : Nat

structure IsrAckTracker (ν τ : Type*) where
  nodeOffsets : AList fun _ : ν => Int
  waiters : OrderedMap Int (List (WaitEntry τ))

namespace IsrAckTracker

def new : IsrAckTracker ν τ := ⟨∅, .empty⟩

/-- How many nodes have reported this offset or a higher one. -/
def reached (offsets : AList fun _ : ν => Int) (offset : Int) : Nat :=
  (offsets.entries.filter (offset ≤ ·.2)).length

section
variable (t : IsrAckTracker ν τ) (offset : Int)

/-- A new wait: answered at once if its quorum is there already. -/
def registerWait (quorumSize : Nat) (tx : τ) (now : Nat) : IsrAckTracker ν τ × List (WaitEntry τ) :=
  if quorumSize ≤ reached t.nodeOffsets offset then (t, [⟨tx, quorumSize, now⟩])
  else
    ({ t with waiters := t.waiters.upsert offset fun ws => ws.getD [] ++ [⟨tx, quorumSize, now⟩] }, [])

def highest (offsets : AList fun _ : ν => Int) : Int :=
  (offsets.entries.map (·.2)).foldl max i64Min

/-- The waits at one offset that stay, and none at all where no wait stays. -/
def stillWaiting (offsets : AList fun _ : ν => Int) (offset : Int) (ws : List (WaitEntry τ)) :
    Option (List (WaitEntry τ)) :=
  if highest offsets < offset then some ws
  else if ws.all (·.quorumSize ≤ reached offsets offset) then none
  else some (ws.filter (reached offsets offset < ·.quorumSize))

/-- A report of a node, with the waits it answers. One that is not ahead of the node's last report
changes nothing. -/
def recordAck [DecidableEq ν] (t : IsrAckTracker ν τ) (offset : Int) (node : ν) :
    IsrAckTracker ν τ × List (WaitEntry τ) :=
  let slot := (t.nodeOffsets.lookup node).getD i64Min
  if slot < offset then
    let offsets := t.nodeOffsets.insert node offset
    let candidates := t.waiters.entries.filter (·.1 ≤ highest offsets)
    (⟨offsets, t.waiters.filterMapValues (stillWaiting offsets)⟩,
      candidates.flatMap fun x => x.2.filter (·.quorumSize ≤ reached offsets x.1))
  else ({ t with nodeOffsets := t.nodeOffsets.insert node slot }, [])

/-- The reaper: waits older than the timeout are failed. -/
def cleanupExpired (now timeout : Nat) : IsrAckTracker ν τ :=
  { t with
    waiters := t.waiters.filterMapValues fun _ ws =>
      if ws.all (timeout < now - ·.registeredAt) then none
      else some (ws.filter (now - ·.registeredAt ≤ timeout)) }

/-- A wait is registered at an offset and not answered yet. -/
def Waits (w : WaitEntry τ) : Prop :=
  ∃ ws, (offset, ws) ∈ t.waiters.entries ∧ w ∈ ws

end

/-! ## What the operations do -/

section
variable {t : IsrAckTracker ν τ} {offset o : Int} {node n : ν} {quorumSize now : Nat} {tx : τ}
  {w : WaitEntry τ}

theorem reached_le_card [DecidableEq ν] [Fintype ν] (offsets : AList fun _ : ν => Int) (offset : Int)
    [DecidablePred p] (hp : ∀ n k, offsets.lookup n = some k → offset ≤ k → p n) :
    reached offsets offset ≤ (Finset.univ.filter p).card := by
  have hnodup : ((offsets.entries.filter (offset ≤ ·.2)).map Sigma.fst).Nodup :=
    List.NodupKeys.sublist filter_sublist offsets.nodupKeys
  rw [reached, ← length_map Sigma.fst, ← toFinset_card_of_nodup hnodup]
  refine Finset.card_le_card fun n hn => ?_
  obtain ⟨x, hx, rfl⟩ := mem_map.1 (mem_toFinset.1 hn)
  obtain ⟨hmem, hle⟩ := mem_filter.1 hx
  exact Finset.mem_filter.2 ⟨Finset.mem_univ _,
    hp x.1 x.2 (AList.mem_lookup_iff.2 hmem) (of_decide_eq_true hle)⟩

theorem mem_registerWait_released (h : w ∈ (t.registerWait offset quorumSize tx now).2) :
    w = ⟨tx, quorumSize, now⟩ ∧ quorumSize ≤ reached t.nodeOffsets offset := by
  rw [registerWait] at h
  split at h
  case isTrue hq => exact ⟨mem_singleton.1 h, hq⟩
  case isFalse => cases h

theorem nodeOffsets_registerWait :
    (t.registerWait offset quorumSize tx now).1.nodeOffsets = t.nodeOffsets := by
  rw [registerWait]
  split <;> rfl

theorem waits_registerWait (h : (t.registerWait offset quorumSize tx now).1.Waits o w) :
    t.Waits o w ∨ (o = offset ∧ w = ⟨tx, quorumSize, now⟩) := by
  rw [registerWait] at h
  split at h
  case isTrue => exact .inl h
  case isFalse =>
  obtain ⟨ws, hws, hw⟩ := h
  rcases mem_upsert.1 hws with ⟨hws, -⟩ | hws
  · exact .inl ⟨ws, hws, hw⟩
  cases hws
  rcases mem_append.1 hw with hw | hw
  · cases hold : t.waiters.get? offset with rw [hold] at hw
    | none =>
      cases hw
    | some ws' =>
      exact .inl ⟨ws', get?_eq_some_iff.1 hold, hw⟩
  · exact .inr ⟨rfl, mem_singleton.1 hw⟩

/-- The reports after one of `node` are those before, and for `node` possibly the new one or the
least offset that stands for no report. -/
theorem lookup_recordAck [DecidableEq ν]
    (h : (t.recordAck offset node).1.nodeOffsets.lookup n = some k) :
    t.nodeOffsets.lookup n = some k ∨ (n = node ∧ (k = offset ∨ k = i64Min)) := by
  rcases eq_or_ne n node with rfl | hne
  · rw [recordAck] at h
    split at h
    case isTrue =>
      rw [AList.lookup_insert] at h
      cases h
      exact .inr ⟨rfl, .inl rfl⟩
    case isFalse =>
      rw [AList.lookup_insert] at h
      cases h
      cases t.nodeOffsets.lookup n with
      | none => exact .inr ⟨rfl, .inr rfl⟩
      | some slot => exact .inl rfl
  · rw [recordAck] at h
    split at h
    all_goals exact .inl (AList.lookup_insert_ne hne ▸ h)

theorem mem_recordAck_released [DecidableEq ν] (h : w ∈ (t.recordAck offset node).2) :
    ∃ o, t.Waits o w ∧ w.quorumSize ≤ reached (t.recordAck offset node).1.nodeOffsets o := by
  rw [recordAck] at h ⊢
  split at h
  case isTrue hlt =>
    obtain ⟨⟨o, ws⟩, hx, hw⟩ := mem_flatMap.1 h
    obtain ⟨hw, hq⟩ := mem_filter.1 hw
    rw [if_pos hlt]
    exact ⟨o, ⟨ws, (mem_filter.1 hx).1, hw⟩, of_decide_eq_true hq⟩
  case isFalse => cases h

theorem mem_of_stillWaiting (h : stillWaiting offsets o ws = some ws') (hw : w ∈ ws') : w ∈ ws := by
  rw [stillWaiting] at h
  split at h
  case isTrue => cases h; exact hw
  case isFalse =>
  split at h
  case isTrue => cases h
  case isFalse => cases h; exact (mem_filter.1 hw).1

theorem waits_recordAck [DecidableEq ν] (h : (t.recordAck offset node).1.Waits o w) :
    t.Waits o w := by
  rw [recordAck] at h
  split at h
  case isTrue =>
    obtain ⟨ws, hws, hw⟩ := h
    obtain ⟨ws', hws', hstill⟩ := mem_filterMapValues.1 hws
    exact ⟨ws', hws', mem_of_stillWaiting hstill hw⟩
  case isFalse => exact h

theorem waits_cleanupExpired (h : (t.cleanupExpired now timeout).Waits o w) : t.Waits o w := by
  obtain ⟨ws, hws, hw⟩ := h
  obtain ⟨ws', hws', hstill⟩ := mem_filterMapValues.1 hws
  refine ⟨ws', hws', ?_⟩
  split at hstill
  case isTrue => cases hstill
  case isFalse => cases hstill; exact (mem_filter.1 hw).1

end

/-! ## Whole runs -/

/-- The steps of a partition's tracker. -/
inductive Step (ν τ : Type*)
  | registerWait (offset : Int) (quorumSize : Nat) (tx : τ) (now : Nat)
  | recordAck (offset : Int) (node : ν)
  | cleanupExpired (now timeout : Nat)

/-- The wait that a step brings, with its offset. -/
def Step.waits : Step ν τ → List (Int × WaitEntry τ)
  | .registerWait offset quorumSize tx now => [(offset, ⟨tx, quorumSize, now⟩)]
  | _ => []

/-- Is a wait too old at this step? -/
def Step.expires : Step ν τ → WaitEntry τ → Bool
  | .cleanupExpired now timeout, w => timeout < now - w.registeredAt
  | _, _ => false

/-- The waits of a map, with their offsets. -/
def waitsIn (m : OrderedMap Int (List (WaitEntry τ))) : List (Int × WaitEntry τ) :=
  m.entries.flatMap fun x => x.2.map (x.1, ·)

section
variable [DecidableEq ν]

/-- One step, and what it answers: success or, at a cleanup, the timeout. -/
def step (t : IsrAckTracker ν τ) : Step ν τ → IsrAckTracker ν τ × List (WaitEntry τ × Bool)
  | .registerWait offset quorumSize tx now =>
    (t.registerWait offset quorumSize tx now).map id (·.map (·, true))
  | .recordAck offset node => (t.recordAck offset node).map id (·.map (·, true))
  | .cleanupExpired now timeout =>
    (t.cleanupExpired now timeout, t.waiters.entries.flatMap fun x =>
      (x.2.filter (timeout < now - ·.registeredAt)).map (·, false))

/-- The state and the answers after some steps. -/
def run (steps : List (Step ν τ)) : IsrAckTracker ν τ × List (WaitEntry τ × Bool) :=
  steps.foldl (fun st s => ((st.1.step s).1, st.2 ++ (st.1.step s).2)) (new, [])

/-- The nodes that have reported this offset or a higher one. -/
def reporters (steps : List (Step ν τ)) (o : Int) : Finset ν :=
  (steps.filterMap fun
    | .recordAck offset node => if o ≤ offset then some node else none
    | _ => none).toFinset

/-- Has a wait its quorum after these steps? -/
def met (steps : List (Step ν τ)) (x : Int × WaitEntry τ) : Bool :=
  x.2.quorumSize ≤ (reporters steps x.1).card

/-- The state knows how far each node has come, no wait has its quorum, and no list is empty. -/
structure Waiting (steps : List (Step ν τ)) (t : IsrAckTracker ν τ) : Prop where
  tracks : ∀ o, i64Min < o →
    ∀ n, n ∈ reporters steps o ↔ ∃ k, t.nodeOffsets.lookup n = some k ∧ o ≤ k
  above : ∀ x ∈ waitsIn t.waiters, i64Min < x.1
  unmet : ∀ x ∈ waitsIn t.waiters, met steps x = false
  nonempty : ∀ x ∈ t.waiters.entries, x.2 ≠ []

/-- Waits that have their quorum now are answered with success, other expired ones with the timeout,
and the rest stays. -/
structure Answers (steps : List (Step ν τ)) (s : Step ν τ) (t : IsrAckTracker ν τ) : Prop where
  sent : (t.step s).2 =
    ((waitsIn t.waiters ++ s.waits).filter (met (steps ++ [s]))).map (·.2, true) ++
      ((waitsIn t.waiters ++ s.waits).filter fun x =>
        s.expires x.2 && !met (steps ++ [s]) x).map (·.2, false)
  kept : (waitsIn (t.step s).1.waiters).Perm
    ((waitsIn t.waiters ++ s.waits).filter fun x => !s.expires x.2 && !met (steps ++ [s]) x)

end

section
variable {m : OrderedMap Int (List (WaitEntry τ))} {p : Int × WaitEntry τ → Bool}

theorem waitsIn_upsert :
    (waitsIn (m.upsert o fun ws => ws.getD [] ++ [w])).Perm (waitsIn m ++ [(o, w)]) := by
  refine .trans ?_ (perm_append_singleton _ _).symm
  simp only [waitsIn, upsert]
  induction m.entries with
  | nil => exact .refl _
  | cons y l ih =>
    rcases lt_trichotomy o y.1 with hlt | heq | hlt
    · simp [upsertList, hlt]
    · simp [upsertList, heq]
    · simpa [upsertList, hlt, hlt.le.not_gt] using (ih.append_left _).trans perm_middle

theorem waitsIn_filterMapValues {f : Int → List (WaitEntry τ) → Option (List (WaitEntry τ))}
    (hf : ∀ x ∈ m.entries, (f x.1 x.2).getD [] = x.2.filter fun w => p (x.1, w)) :
    waitsIn (m.filterMapValues f) = (waitsIn m).filter p := by
  simp only [waitsIn, filterMapValues]
  generalize m.entries = l at *
  induction l with
  | nil => rfl
  | cons y l ih =>
    rw [flatMap_cons, filter_append, filter_map]
    cases hfy : f y.1 y.2 <;> simp_all [Function.comp_def]

/-- What is sent by a scan that answers nothing outside `q`. -/
theorem flatMap_filter_waitsIn {β : Type*} {q : Int × List (WaitEntry τ) → Bool} (g : WaitEntry τ → β)
    (hq : ∀ x ∈ m.entries, q x = false → ∀ w ∈ x.2, p (x.1, w) = false) :
    ((m.entries.filter q).flatMap fun x => (x.2.filter fun w => p (x.1, w)).map g) =
      ((waitsIn m).filter p).map (g ·.2) := by
  unfold waitsIn
  generalize m.entries = l at *
  induction l with
  | nil => rfl
  | cons y l ih =>
    cases hqy : q y <;> simp_all [filter_map, Function.comp_def]

theorem filter_of_unmet {l : List (Int × WaitEntry τ)} (h : ∀ x ∈ l, p x = false) :
    l.filter p = [] ∧ l.filter (!p ·) = l :=
  ⟨filter_eq_nil_iff.2 (by simpa using h), filter_eq_self.2 (by simpa using h)⟩

theorem le_foldl_max {a k : Int} {l : List Int} (h : k ≤ a ∨ k ∈ l) : k ≤ l.foldl max a := by
  induction l generalizing a with
  | nil => simpa using h
  | cons b l ih => grind

theorem reached_eq_zero {offsets : AList fun _ : ν => Int} (h : highest offsets < o) :
    reached offsets o = 0 := by
  rw [reached, length_eq_zero_iff, filter_eq_nil_iff]
  intro x hx
  have := le_foldl_max (a := i64Min) (.inr (mem_map_of_mem (f := (·.2)) hx))
  simpa using this.trans_lt h

theorem reached_eq_card [DecidableEq ν] {offsets : AList fun _ : ν => Int} {nodes : Finset ν}
    (h : ∀ n, n ∈ nodes ↔ ∃ k, offsets.lookup n = some k ∧ o ≤ k) :
    reached offsets o = nodes.card := by
  have hnodup : ((offsets.entries.filter (o ≤ ·.2)).map Sigma.fst).Nodup :=
    List.NodupKeys.sublist filter_sublist offsets.nodupKeys
  rw [reached, ← length_map Sigma.fst, ← toFinset_card_of_nodup hnodup]
  congr 1
  ext n
  rw [h]
  simp [← AList.mem_lookup_iff]

end

section
variable [DecidableEq ν] {t : IsrAckTracker ν τ} {node n : ν} {steps : List (Step ν τ)} {s : Step ν τ}

@[simp] theorem reporters_append :
    reporters (steps ++ [s]) o = reporters steps o ∪ reporters [s] o := by
  ext n
  simp [reporters]

theorem mem_reporters_recordAck :
    n ∈ reporters [Step.recordAck (τ := τ) offset node] o ↔ o ≤ offset ∧ n = node := by
  simp only [reporters, filterMap_cons, filterMap_nil]
  split <;> simp_all

section
variable (h : Waiting steps t)
include h

theorem Waiting.tracks_step (ho : i64Min < o) (n : ν) :
    n ∈ reporters (steps ++ [s]) o ↔ ∃ k, (t.step s).1.nodeOffsets.lookup n = some k ∧ o ≤ k := by
  have hold := h.tracks o ho n
  cases s with
  | registerWait => simpa [reporters, step, nodeOffsets_registerWait] using hold
  | cleanupExpired => simpa [reporters, step, cleanupExpired] using hold
  | recordAck offset node =>
  rw [reporters_append, Finset.mem_union, hold, mem_reporters_recordAck]
  by_cases hn : n = node
  · subst hn
    cases hlook : t.nodeOffsets.lookup n <;> simp [step, recordAck, hlook] <;> split <;>
      simp <;> omega
  · simp [step, recordAck, hn]
    split <;> simp [AList.lookup_insert_ne hn]

theorem Waiting.answers_registerWait {quorumSize now : Nat} {tx : τ}
    (ho : i64Min < offset) : Answers steps (.registerWait offset quorumSize tx now) t := by
  have hmet : met (steps ++ [.registerWait offset quorumSize tx now]) = met steps := funext fun x => by
    exact congrArg (decide <| _ ≤ Finset.card ·) (reporters_append.trans (Finset.union_empty _))
  obtain ⟨hnone, hall⟩ := filter_of_unmet h.unmet
  have hx : met steps (offset, ⟨tx, quorumSize, now⟩) =
      decide (quorumSize ≤ reached t.nodeOffsets offset) := by
    rw [reached_eq_card (h.tracks _ ho), met]
  by_cases hq : quorumSize ≤ reached t.nodeOffsets offset <;> constructor <;>
    simp [step, registerWait, Step.waits, Step.expires, hmet, hx, hq, hnone, hall, waitsIn_upsert]

/-- The scan misses no wait: none above the furthest report has a quorum, and an old report
completes none. -/
theorem Waiting.answers_recordAck : Answers steps (.recordAck offset node) t := by
  by_cases hlt : (t.nodeOffsets.lookup node).getD i64Min < offset
  · have hmet : ∀ x ∈ waitsIn t.waiters, met (steps ++ [.recordAck offset node]) x =
        decide (x.2.quorumSize ≤ reached (t.nodeOffsets.insert node offset) x.1) := by
      intro x hx
      have hcard := reached_eq_card (h.tracks_step (s := .recordAck offset node) (h.above x hx))
      rw [met, ← hcard]
      simp [step, recordAck, hlt]
    generalize hoffsets : t.nodeOffsets.insert node offset = offsets at hmet
    have hlow : ∀ x ∈ t.waiters.entries, highest offsets < x.1 →
        ∀ w ∈ x.2, reached offsets x.1 < w.quorumSize := by
      intro x hx hhigh w hw
      have := h.unmet (x.1, w) (mem_flatMap.2 ⟨x, hx, mem_map_of_mem hw⟩)
      rw [reached_eq_zero hhigh]
      grind [met]
    constructor <;> simp only [step, recordAck, hlt, if_true, hoffsets, Step.waits, Step.expires,
      append_nil, Prod.map]
    · rw [map_flatMap, flatMap_filter_waitsIn (p := fun x => x.2.quorumSize ≤ reached offsets x.1),
        ← filter_congr hmet]
      · simp
      · simpa using hlow
    · refine .of_eq ((waitsIn_filterMapValues
        (p := fun x => !decide (x.2.quorumSize ≤ reached offsets x.1)) fun x hx => ?_).trans ?_)
      · grind [stillWaiting, filter_eq_nil_iff, filter_eq_self]
      · exact filter_congr fun x hx => by simp [hmet x hx]
  · have hunmet : ∀ x ∈ waitsIn t.waiters, met (steps ++ [.recordAck offset node]) x = false := by
      intro x hx
      have hsub : reporters [.recordAck (τ := τ) offset node] x.1 ⊆ reporters steps x.1 := by
        intro n hn
        have habove := h.above x hx
        obtain ⟨hle, rfl⟩ := mem_reporters_recordAck.1 hn
        rw [h.tracks _ habove]
        cases hlook : t.nodeOffsets.lookup n <;> simp [hlook] at hlt ⊢ <;> omega
      simpa [met, Finset.union_eq_left.2 hsub] using h.unmet x hx
    obtain ⟨hnone, hall⟩ := filter_of_unmet hunmet
    constructor <;> simp [step, recordAck, hlt, Step.waits, Step.expires, hnone, hall]

theorem Waiting.answers_cleanupExpired {now timeout : Nat} :
    Answers steps (.cleanupExpired now timeout) t := by
  have hmet : met (steps ++ [.cleanupExpired now timeout]) = met steps := funext fun x => by
    exact congrArg (decide <| _ ≤ Finset.card ·) (reporters_append.trans (Finset.union_empty _))
  have hall : ∀ p, (waitsIn t.waiters).filter (fun x => p x && !met steps x) =
      (waitsIn t.waiters).filter p := fun p => filter_congr fun x hx => by simp [h.unmet x hx]
  constructor <;> simp only [hmet, hall, Step.waits, Step.expires, append_nil]
  · have := flatMap_filter_waitsIn (m := t.waiters) (p := fun x => timeout < now - x.2.registeredAt)
      (q := fun _ => true) (·, false) (by simp)
    simpa [step, (filter_of_unmet h.unmet).1] using this
  · exact .of_eq (waitsIn_filterMapValues fun x _ => by grind [filter_eq_nil_iff])

theorem Waiting.nonempty_step : ∀ x ∈ (t.step s).1.waiters.entries, x.2 ≠ [] := by
  intro x hx
  cases s with
  | registerWait offset quorumSize tx now =>
    simp only [step, registerWait] at hx
    split at hx
    · exact h.nonempty x hx
    rcases mem_upsert.1 hx with ⟨hx, -⟩ | rfl
    · exact h.nonempty x hx
    · simp
  | recordAck offset node =>
    simp only [step, recordAck] at hx
    split at hx
    · obtain ⟨ws, hws, hx⟩ := mem_filterMapValues.1 hx
      grind [stillWaiting, filter_eq_nil_iff, h.nonempty _ hws]
    · exact h.nonempty x hx
  | cleanupExpired now timeout =>
    obtain ⟨ws, hws, hx⟩ := mem_filterMapValues.1 hx
    grind [filter_eq_nil_iff]

variable (hs : ∀ x ∈ s.waits, i64Min < x.1)
include hs

theorem Waiting.answers : Answers steps s t := by
  cases s with
  | registerWait => exact h.answers_registerWait (hs _ (.head _))
  | recordAck => exact h.answers_recordAck
  | cleanupExpired => exact h.answers_cleanupExpired

theorem Waiting.step : Waiting (steps ++ [s]) (t.step s).1 := by
  have hkept := fun x => (h.answers hs).kept.mem_iff (a := x)
  simp only [mem_filter, mem_append] at hkept
  exact ⟨fun o ho => h.tracks_step ho, fun x hx => ((hkept x).1 hx).1.elim (h.above x) (hs x),
    fun x hx => by simpa using (Bool.and_eq_true_iff.1 ((hkept x).1 hx).2).2, h.nonempty_step⟩

end

theorem run_concat : run (steps ++ [s]) =
    (((run steps).1.step s).1, (run steps).2 ++ ((run steps).1.step s).2) := by
  simp [run]

section
variable (hmin : ∀ s ∈ steps, ∀ x ∈ s.waits, i64Min < x.1)
include hmin

theorem waiting_run : Waiting steps (run steps).1 := by
  induction steps using List.reverseRecOn with
  | nil => constructor <;> simp [run, new, reporters, waitsIn, empty]
  | append_singleton steps s ih =>
    rw [run_concat]
    exact (ih fun s hs => hmin s (by simp [hs])).step (hmin s (by simp))

/-- The waits answered so far and those that are left are the registered ones. -/
theorem perm_registered :
    ((run steps).2.map (·.1) ++ (waitsIn (run steps).1.waiters).map (·.2)).Perm
      ((steps.flatMap Step.waits).map (·.2)) := by
  induction steps using List.reverseRecOn with
  | nil => exact .refl _
  | append_singleton steps s ih =>
    have hsteps : ∀ s ∈ steps, ∀ x ∈ s.waits, i64Min < x.1 := fun s hs => hmin s (by simp [hs])
    obtain ⟨hsent, hkept⟩ := (waiting_run hsteps).answers (hmin s (by simp))
    have hall := (ih hsteps).append_right (s.waits.map (·.2))
    simp only [append_assoc, ← map_append] at hall
    rw [run_concat, hsent]
    generalize waitsIn (run steps).1.waiters ++ s.waits = asked at *
    have hrest := filter_append_perm (s.expires ·.2) (asked.filter fun x => !met (steps ++ [s]) x)
    have hasked :=
      ((hrest.append_left _).trans (filter_append_perm (met (steps ++ [s]) ·) asked)).map (·.2)
    simp [Function.comp_def] at hasked hall ⊢
    exact (((hkept.map _).append_left _).append_left _ |>.append_left _).trans
      ((hasked.append_left _).trans hall)

end

/-- Every step answers with success exactly the waits that have their quorum after it and with the
timeout the others that have expired; no pending wait has its quorum and none is answered twice. The
offset that stands for no report is not waited for. -/
theorem answered_at_quorum (steps : List (Step ν τ)) (s : Step ν τ)
    (hmin : ∀ u ∈ steps ++ [s], ∀ x ∈ u.waits, i64Min < x.1) : let after := run (steps ++ [s])
    Answers steps s (run steps).1 ∧ (∀ x ∈ waitsIn after.1.waiters, met (steps ++ [s]) x = false) ∧
      (∀ x ∈ after.1.waiters.entries, x.2 ≠ []) ∧
      (after.2.map (·.1) ++ (waitsIn after.1.waiters).map (·.2)).Perm
        (((steps ++ [s]).flatMap Step.waits).map (·.2)) := by
  have hsteps : ∀ u ∈ steps, ∀ x ∈ u.waits, i64Min < x.1 := fun u hu => hmin u (by simp [hu])
  have hrun := waiting_run hmin
  exact ⟨(waiting_run hsteps).answers (hmin s (by simp)), hrun.unmet, hrun.nonempty,
    perm_registered hmin⟩

/-- Two waits at one offset with different quorums: the second report answers the first of them. -/
theorem answered_at_quorum_twoWaits : let steps : List (Step Nat String) :=
      [.registerWait 5 2 "a" 0, .registerWait 5 3 "b" 0, .recordAck 5 0]
    (run (steps ++ [.recordAck 7 1])).2.map (fun x => (x.1.tx, x.2)) = [("a", true)] ∧
      Answers steps (.recordAck 7 1) (run steps).1 :=
  ⟨by decide, (answered_at_quorum _ _ (by decide)).1⟩

/-- A wait for the least offset, which stands for no report, stays when that offset is reported. -/
theorem least_offset_unanswered :
    let steps : List (Step Nat String) := [.registerWait i64Min 1 "a" 0, .recordAck i64Min 0]
    ∃ x ∈ waitsIn (run steps).1.waiters, met steps x :=
  ⟨(i64Min, ⟨"a", 1, 0⟩), .head _, by decide⟩

end

end IsrAckTracker

end ChronikStream
