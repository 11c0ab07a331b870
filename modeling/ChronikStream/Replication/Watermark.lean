import ChronikStream.Lib.Run
import ChronikStream.Replication.IsrTracker

/-!
# The consumer-visible watermark under one leader

`replicated_watermark` is the least of the leader's end and of the positions of the in-sync
followers. It goes backwards exactly where a follower comes into sync below it; a run that keeps to
`EntersAbove` has a watermark that never goes back.
-/

namespace ChronikStream

open Machine IsrTracker

structure Assignment where
  tp : PartitionKey
  replicas : List Nat
  leaderId : Nat

/-- The leader's view of a partition. The positions of followers are offsets. -/
structure LeaderView (a : Assignment) where
  tracker : IsrTracker
  leo : Int
  nowMs : Nat
  leo_nonneg : 0 ≤ leo
  position_nonneg : ∀ n, ∀ state ∈ tracker.follower n a.tp, 0 ≤ state.lastOffset

namespace LeaderView

variable {a : Assignment}

section
variable (s : LeaderView a)

def watermark : Int :=
  s.tracker.replicatedWatermark a.tp s.leo a.replicas a.leaderId s.nowMs

def InSync (node : Nat) : Prop :=
  s.tracker.syncState node a.tp s.leo s.nowMs = .inSync
deriving Decidable

/-- A liveness report comes with a heartbeat or another fetch; a node is forgotten with its
connection. -/
inductive Action where
  | append (count : Nat)
  | fetch (node : Nat) (offset : Int)
  | alive (node : Nat)
  | forget (node : Nat)
  | tick (ms : Nat)

/-- The fetch is at an offset, and not below the follower's last one. -/
def FetchesOn (node : Nat) (offset : Int) : Prop :=
  0 ≤ offset ∧ ∀ state ∈ s.tracker.follower node a.tp, state.lastOffset ≤ offset
deriving Decidable

/-- A follower's fetch records its position and that its node is alive. -/
def fetch (node : Nat) (offset : Int) (h : s.FetchesOn node offset) : LeaderView a where
  tracker := (s.tracker.updateFollowerOffset node a.tp offset s.nowMs).recordNodeAlive node s.nowMs
  leo := s.leo
  nowMs := s.nowMs
  leo_nonneg := s.leo_nonneg
  position_nonneg := by
    intro n state hstate
    rw [follower_recordNodeAlive] at hstate
    by_cases hn : n = node
    · subst hn
      rw [follower_updateFollowerOffset_self] at hstate
      cases hstate
      exact h.1
    · rw [follower_updateFollowerOffset_of_ne fun h => hn h.1.symm] at hstate
      exact s.position_nonneg n state hstate

def step : Action → Option (LeaderView a)
  | .append count =>
    some { s with leo := s.leo + count, leo_nonneg := Int.add_nonneg s.leo_nonneg (by omega) }
  | .fetch node offset => if h : s.FetchesOn node offset then some (s.fetch node offset h) else none
  | .alive node => some { s with tracker := s.tracker.recordNodeAlive node s.nowMs }
  | .forget node => some
    { s with
      tracker := s.tracker.removeNode node
      position_nonneg := fun n state hstate =>
        s.position_nonneg n state (follower_removeNode hstate) }
  | .tick ms => some { s with nowMs := s.nowMs + ms }

/-- The offset is not below all of the leader's end and the in-sync positions. -/
def Covered (offset : Int) : Prop :=
  s.leo ≤ offset ∨ ∃ n ∈ a.replicas, n ≠ a.leaderId ∧ s.InSync n ∧
    ∃ state ∈ s.tracker.follower n a.tp, state.lastOffset ≤ offset
deriving Decidable

/-- A follower that comes into sync when it fetches or is heard again is not below all others. -/
def EntersAbove : Action → Prop
  | .fetch node offset => node ∈ a.replicas → node ≠ a.leaderId → ¬ s.InSync node →
      s.tracker.WithinLag s.leo s.nowMs ⟨offset, s.nowMs⟩ → s.Covered offset
  | .alive node => node ∈ a.replicas → node ≠ a.leaderId → ¬ s.tracker.NodeIsAlive node s.nowMs →
      ∀ state ∈ s.tracker.follower node a.tp,
        s.tracker.WithinLag s.leo s.nowMs state → s.Covered state.lastOffset
  | _ => True

end

instance : DecidableRel (EntersAbove (a := a)) := fun _ _ => by
  unfold EntersAbove
  split <;> infer_instance

end LeaderView

/-- The machine of one leadership, which begins in any state. -/
def leadership {a : Assignment} (start : LeaderView a) : Machine (LeaderView a) LeaderView.Action where
  init := start
  step := LeaderView.step

namespace LeaderView

section
variable {a : Assignment} {s : LeaderView a} {state : FollowerState}

theorem le_watermark_iff : b ≤ s.watermark ↔ b ≤ s.leo ∧ ∀ n ∈ a.replicas, n ≠ a.leaderId →
    s.InSync n → ∀ state ∈ s.tracker.follower n a.tp, b ≤ state.lastOffset :=
  le_replicatedWatermark_iff s.leo_nonneg s.position_nonneg

theorem watermark_le_leo : s.watermark ≤ s.leo := (le_watermark_iff.1 (le_refl _)).1

theorem watermark_le_position (hn : node ∈ a.replicas) (hleader : node ≠ a.leaderId)
    (hsync : s.InSync node) (hstate : state ∈ s.tracker.follower node a.tp) :
    s.watermark ≤ state.lastOffset :=
  (le_watermark_iff.1 (le_refl _)).2 node hn hleader hsync state hstate

theorem Covered.watermark_le (h : s.Covered b) : s.watermark ≤ b := by
  rcases h with hleo | ⟨n, hn, hleader, hsync, state, hstate, hle⟩
  · exact le_trans watermark_le_leo hleo
  · exact le_trans (watermark_le_position hn hleader hsync hstate) hle

/-- The follower in sync after the step was in sync, at a position not above, or is covered. -/
def Followed (s : LeaderView a) (n : Nat) (state : FollowerState) : Prop :=
  (s.InSync n ∧ ∃ old ∈ s.tracker.follower n a.tp, old.lastOffset ≤ state.lastOffset) ∨
    s.Covered state.lastOffset

theorem Followed.of_inSync (hstate : s.tracker.follower node a.tp = some state)
    (halive : s.tracker.NodeIsAlive node s.nowMs) (hlag : s.tracker.WithinLag s.leo s.nowMs state) :
    s.Followed node state :=
  .inl ⟨(syncState_eq_inSync_iff hstate).2 ⟨halive, hlag⟩, state, hstate, le_refl _⟩

theorem followed_of_step (hok : s.EntersAbove act) (hs : s.step act = some s')
    (hn : node ∈ a.replicas) (hleader : node ≠ a.leaderId) (hsync : s'.InSync node)
    (hstate : state ∈ s'.tracker.follower node a.tp) : s.Followed node state := by
  obtain ⟨halive, hlag⟩ := (syncState_eq_inSync_iff hstate).1 hsync
  cases act with
  | append count =>
    cases hs
    have hleo : s.leo ≤ s.leo + count := by omega
    exact .of_inSync hstate halive (hlag.of_le hleo (le_refl _))
  | fetch n offset =>
    rw [LeaderView.step] at hs
    obtain ⟨hfetch, hs⟩ := Option.dite_none_right_eq_some.1 hs
    cases hs
    have hstate : state ∈ (s.tracker.updateFollowerOffset n a.tp offset s.nowMs).follower node a.tp :=
      hstate
    by_cases hnode : node = n
    · subst hnode
      rw [follower_updateFollowerOffset_self] at hstate
      cases hstate
      by_cases hbefore : s.InSync node
      · obtain ⟨old, hold⟩ := exists_follower_of_inSync hbefore
        exact .inl ⟨hbefore, old, hold, hfetch.2 old hold⟩
      · exact .inr (hok hn hleader hbefore hlag)
    · rw [follower_updateFollowerOffset_of_ne fun h => hnode h.1.symm] at hstate
      have halive := (nodeIsAlive_recordNodeAlive_of_ne hnode).1 halive
      exact .of_inSync hstate halive hlag
  | alive n =>
    cases hs
    by_cases hbefore : s.tracker.NodeIsAlive node s.nowMs
    · exact .of_inSync hstate hbefore hlag
    by_cases hnode : node = n
    · subst hnode
      exact .inr (hok hn hleader hbefore state hstate hlag)
    · exact absurd ((nodeIsAlive_recordNodeAlive_of_ne hnode).1 halive) hbefore
  | forget n =>
    cases hs
    exact .of_inSync (follower_removeNode hstate) halive hlag
  | tick ms =>
    cases hs
    have hnow : s.nowMs ≤ s.nowMs + ms := Nat.le_add_right _ _
    exact .of_inSync hstate (halive.of_le hnow) (hlag.of_le (le_refl _) hnow)

theorem leo_le_of_step (hs : s.step act = some s') : s.leo ≤ s'.leo := by
  cases act with
  | append count =>
    cases hs
    show s.leo ≤ s.leo + count
    omega
  | fetch n offset =>
    rw [LeaderView.step] at hs
    split at hs
    case isTrue => cases hs; exact le_refl _
    case isFalse => cases hs
  | alive _ | forget _ | tick _ => cases hs; exact le_refl _

theorem watermark_le_of_step (hok : s.EntersAbove act) (hs : s.step act = some s') :
    s.watermark ≤ s'.watermark := by
  refine le_watermark_iff.2 ⟨le_trans watermark_le_leo (leo_le_of_step hs), ?_⟩
  intro n hn hleader hsync state hstate
  rcases followed_of_step hok hs hn hleader hsync hstate with ⟨hbefore, old, hold, hle⟩ | hcovered
  · exact le_trans (watermark_le_position hn hleader hbefore hold) hle
  · exact hcovered.watermark_le

/-- Where no follower comes into sync below all others, the watermark is never below the one the run
began with, nor above the leader's end or an in-sync follower. A run begins in any state. -/
theorem watermark_monotone {start : LeaderView a} (h : Reaches (leadership start) EntersAbove s) :
    start.watermark ≤ s.watermark ∧ s.watermark ≤ s.leo ∧
      ∀ n ∈ a.replicas, n ≠ a.leaderId → s.InSync n →
        ∀ state ∈ s.tracker.follower n a.tp, s.watermark ≤ state.lastOffset := by
  refine ⟨?_, le_watermark_iff.1 (le_refl _)⟩
  exact h.invariant (I := fun s => start.watermark ≤ s.watermark) (le_refl _)
    fun _ _ _ hi hok hs => le_trans hi (watermark_le_of_step hok hs)

end

end LeaderView

/-! ## A follower that comes back -/

namespace WatermarkFixture

open LeaderView

/-- Node 1 leads a partition that nodes 2 and 3 follow. -/
def orders : Assignment := ⟨("orders", 0), [1, 2, 3], 1⟩

/-- A leader that has just started, with the default bounds. -/
def fresh : LeaderView orders where
  tracker := .new 10000 10000
  leo := 0
  nowMs := 0
  leo_nonneg := le_refl _
  position_nonneg := by
    intro n state hstate
    cases hstate

/-- Node 2 follows closely. Node 3 is not heard for 40 seconds. -/
def silent : List Action :=
  [.append 100, .fetch 2 100, .fetch 3 100, .append 50, .fetch 2 150, .tick 40000, .fetch 2 150]

/-- Node 3 catches up before it is in sync again. -/
def caughtUp : List Action := silent ++ [.append 10, .fetch 2 155, .fetch 3 155, .fetch 2 160]

end WatermarkFixture

section
open WatermarkFixture LeaderView

/-- The watermark falls from 150 to 100 when node 3 comes back, 50 records behind. -/
theorem watermark_falls_when_follower_returns :
    ¬ ∀ (a : Assignment) (start s : LeaderView a), Reaches (leadership start) Always s →
      start.watermark ≤ s.watermark ∧ s.watermark ≤ s.leo ∧
        ∀ n ∈ a.replicas, n ≠ a.leaderId → s.InSync n →
          ∀ state ∈ s.tracker.follower n a.tp, s.watermark ≤ state.lastOffset := by
  intro h
  obtain ⟨s, -, hbefore, s', hstep, hafter⟩ := exists_reaches_of_run (leadership fresh) Always silent
    (fun s => s.watermark = 150 ∧
      ∃ s' ∈ s.step (.fetch 3 100), s'.watermark = 100) (by decide +kernel)
  have hle := (h orders s s' (.step (.fetch 3 100) .init trivial hstep)).1
  rw [hbefore, hafter] at hle
  exact absurd hle (by decide)

theorem watermark_monotone_caught_up :
    ∃ s, Reaches (leadership fresh) EntersAbove s ∧ s.watermark = 155 ∧
      fresh.watermark ≤ s.watermark ∧ s.watermark ≤ s.leo := by
  obtain ⟨s, hs, hw⟩ := exists_reaches_of_run (leadership fresh) EntersAbove caughtUp
    (fun s => s.watermark = 155) (by decide +kernel)
  obtain ⟨hmono, hleo, -⟩ := watermark_monotone hs
  exact ⟨s, hs, hw, hmono, hleo⟩

end

/-! ## A follower that stays behind -/

/-- What the classification of a partition's followers reads. -/
structure LagView where
  tracker : IsrTracker
  leo : Int
  nowMs : Nat

namespace LagView

/-- A reading of the clock may be before the last one. -/
inductive Event where
  | append (count : Nat)
  | fetch (node : Nat) (offset : Int)
  | clock (ms : Nat)

section
variable (tp : PartitionKey) (v : LagView) (node : Nat)

def step : Event → LagView
  | .append count => { v with leo := v.leo + count }
  | .fetch node offset =>
    { v with
      tracker := (v.tracker.updateFollowerOffset node tp offset v.nowMs).recordNodeAlive node v.nowMs }
  | .clock ms => { v with nowMs := ms }

def InSync : Prop := v.tracker.syncState node tp v.leo v.nowMs = .inSync
deriving Decidable

def Behind : Prop := ∀ state ∈ v.tracker.follower node tp, state.lastOffset < v.leo
deriving Decidable

def SilentBehind (e : Event) : Prop := v.Behind tp node ∧ ∀ offset, e ≠ .fetch node offset

/-- The bound is the start's, and the last report is not after the start. -/
def ReportedBy (start : LagView) : Prop :=
  v.tracker.maxLagMs = start.tracker.maxLagMs ∧
    ∀ state ∈ v.tracker.follower node tp, state.lastUpdateMs ≤ start.nowMs

end

/-- Runs begin in any state. -/
def watch (tp : PartitionKey) (start : LagView) : Machine LagView Event where
  init := start
  step v e := some (v.step tp e)

theorem ReportedBy.step (h : ReportedBy tp v node start)
    (hsilent : ∀ offset, e ≠ .fetch node offset) : ReportedBy tp (v.step tp e) node start := by
  cases e with
  | append _ | clock _ => exact h
  | fetch n offset =>
  have hne : n ≠ node := fun hn => hsilent offset (hn ▸ rfl)
  refine ⟨h.1, fun state hstate => h.2 state ?_⟩
  rwa [← follower_updateFollowerOffset_of_ne fun heq => hne heq.1]

/-- A follower that makes no fetch while it is behind leaves the in-sync set after `maxLagMs`. One at
the leader's end is in it while its node is alive. -/
theorem silent_follower_leaves_inSync (tp : PartitionKey) (node : Nat) (start v : LagView) :
    (Reaches (watch tp start) (SilentBehind tp · node) v → v.Behind tp node →
        (∀ state ∈ start.tracker.follower node tp, state.lastUpdateMs ≤ start.nowMs) →
        start.nowMs + start.tracker.maxLagMs < v.nowMs → ¬ v.InSync tp node) ∧
      (Reaches (watch tp start) Always v → v.tracker.NodeIsAlive node v.nowMs →
        ∀ state ∈ v.tracker.follower node tp, v.leo ≤ state.lastOffset → v.InSync tp node) := by
  constructor
  · intro h hbehind hreport hlong hsync
    obtain ⟨hbound, hreported⟩ := h.invariant (I := (ReportedBy tp · node start)) ⟨rfl, hreport⟩
      fun _ _ _ hi hok hs => by cases hs; exact hi.step hok.2
    obtain ⟨state, hstate⟩ := exists_follower_of_inSync hsync
    have hlast := hreported state hstate
    rcases ((syncState_eq_inSync_iff hstate).1 hsync).2 with hcaught | ⟨-, hshort⟩
    · exact absurd hcaught (not_le.2 (hbehind state hstate))
    · omega
  · intro _ halive state hstate hcaught
    exact (syncState_eq_inSync_iff hstate).2 ⟨halive, .inl hcaught⟩

/-- Node 2 has fetched the first record of two. -/
def oneBehind : LagView where
  tracker := (IsrTracker.new 10 100).updateFollowerOffset 2 ("orders", 0) 1 0
  leo := 2
  nowMs := 0

theorem silent_follower_leaves_inSync_after_bound :
    ¬ (oneBehind.step ("orders", 0) (.clock 120)).InSync ("orders", 0) 2 := by
  refine (silent_follower_leaves_inSync _ _ oneBehind _).1 ?_ (by decide +kernel) (by decide +kernel)
    (by decide)
  exact .step (.clock 120) .init ⟨by decide +kernel, fun _ h => by cases h⟩ rfl

/-- Node 2 fetches every 60 ms and is one record behind all the time. -/
theorem fetching_follower_stays_inSync :
    ¬ ∀ (tp : PartitionKey) (node : Nat) (start v : LagView),
      Reaches (watch tp start) (fun v _ => v.Behind tp node) v → v.Behind tp node →
        start.nowMs + start.tracker.maxLagMs < v.nowMs → ¬ v.InSync tp node := by
  intro h
  obtain ⟨v, hv, hbehind, hlong, hsync⟩ := exists_reaches_of_run (watch ("orders", 0) oneBehind)
    (fun v _ => v.Behind ("orders", 0) 2) [.clock 60, .append 1, .fetch 2 2, .clock 120]
    (fun v => v.Behind ("orders", 0) 2 ∧ 100 < v.nowMs ∧ v.InSync ("orders", 0) 2) (by decide +kernel)
  exact h _ 2 oneBehind v hv hbehind hlong hsync

end LagView

end ChronikStream
