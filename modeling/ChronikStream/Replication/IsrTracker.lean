import ChronikStream.Lib.Bytes
import Mathlib.Data.List.AList
import Mathlib.Data.List.Induction

/-!
# The in-sync tracker

`isr_tracker.rs` remembers each node's last fetch and when it was heard, and computes from this the
state of a follower, the bound for consumers and the position of the live followers. The interface
is `syncState_eq_inSync_iff`, `le_replicatedWatermark_iff` and `forall_le_minAcked_iff`.
-/

namespace ChronikStream

open List

open Bytes (asI64)

/-- Reported where a partition has followers and none of them is live. -/
def unreplicated : Int := -1

abbrev PartitionKey := String × Int

structure FollowerState where
  lastOffset : Int
  lastUpdateMs : Nat
  deriving DecidableEq

inductive SyncState where
  | inSync
  | lagging
  | unknown
  deriving DecidableEq

structure IsrTracker where
  followerOffsets : AList fun _ : Nat × PartitionKey => FollowerState
  nodeLastSeenMs : AList fun _ : Nat => Nat
  maxLagEntries : Nat
  maxLagMs : Nat
  nodeLivenessMs : Nat

namespace IsrTracker

def new (maxLagEntries maxLagMs : Nat) : IsrTracker where
  followerOffsets := ∅
  nodeLastSeenMs := ∅
  maxLagEntries := maxLagEntries
  maxLagMs := maxLagMs
  nodeLivenessMs := min (maxLagMs * 3) (2 ^ 64 - 1)

section
variable (t : IsrTracker)

def recordNodeAlive (node nowMs : Nat) : IsrTracker :=
  { t with nodeLastSeenMs := t.nodeLastSeenMs.insert node nowMs }

def follower (node : Nat) (tp : PartitionKey) : Option FollowerState :=
  t.followerOffsets.lookup (node, tp)

/-- A node that was never heard counts as alive. -/
def NodeIsAlive (node nowMs : Nat) : Prop :=
  ∀ last ∈ t.nodeLastSeenMs.lookup node, nowMs - last ≤ t.nodeLivenessMs
deriving Decidable

def syncState (node : Nat) (tp : PartitionKey) (leaderOffset : Int) (nowMs : Nat) : SyncState :=
  match t.follower node tp with
  | none => .unknown
  | some state =>
    if ¬ t.NodeIsAlive node nowMs then .lagging
    else if leaderOffset ≤ state.lastOffset then .inSync
    else if asI64 t.maxLagEntries < leaderOffset - state.lastOffset then .lagging
    else if t.maxLagMs < nowMs - state.lastUpdateMs then .lagging
    else .inSync

/-- A fetch position replaces the one before, with the time. -/
def updateFollowerOffset (node : Nat) (tp : PartitionKey) (offset : Int)
    (nowMs : Nat) : IsrTracker :=
  { t with followerOffsets := t.followerOffsets.insert (node, tp) ⟨offset, nowMs⟩ }

/-- The lowest position among the followers heard within `maxLagMs`, `unreplicated` where none is,
and nothing without followers. -/
def minAckedOffsetOfLiveFollowers (tp : PartitionKey) (nowMs : Nat) : Option Int :=
  let known := t.followerOffsets.entries.filter fun e => e.1.2 = tp
  let live := known.filter fun e => nowMs - e.2.lastUpdateMs ≤ t.maxLagMs
  match live.map (·.2.lastOffset) with
  | [] => if known = [] then none else some unreplicated
  | offset :: offsets => some (offsets.foldl min offset)

def removeNode (node : Nat) : IsrTracker :=
  { t with
    followerOffsets := ⟨t.followerOffsets.entries.filter fun e => e.1.1 ≠ node,
      t.followerOffsets.nodupKeys.sublist filter_sublist⟩ }

/-- How far a live follower is behind, and nothing for one that is not heard. -/
def getFollowerLag (node : Nat) (tp : PartitionKey) (leaderOffset : Int)
    (nowMs : Nat) : Option Int :=
  (t.follower node tp).bind fun state =>
    if t.NodeIsAlive node nowMs then some (max (leaderOffset - state.lastOffset) 0) else none

/-- `i64::clamp(0, high)`; it is called with `0 ≤ high`. -/
def clampAt (high w : Int) : Int := if w < 0 then 0 else if high < w then high else w

/-- One replica of the loop: an in-sync follower lowers the watermark to where it is. -/
def lowerWatermark (tp : PartitionKey) (leaderLeo : Int) (nowMs : Nat)
    (acc : Int × Bool) (node : Nat) : Int × Bool :=
  if t.syncState node tp leaderLeo nowMs ≠ .inSync then acc
  else
    match t.getFollowerLag node tp leaderLeo nowMs with
    | none => acc
    | some lag => (min acc.1 (leaderLeo - lag), true)

/-- What a consumer may read up to: the leader's end, unless a follower is in sync. -/
def replicatedWatermark (tp : PartitionKey) (leaderLeo : Int) (replicas : List Nat)
    (leaderId nowMs : Nat) : Int :=
  let r := (replicas.filter (· ≠ leaderId)).foldl (t.lowerWatermark tp leaderLeo nowMs)
    (leaderLeo, false)
  if r.2 then clampAt leaderLeo r.1 else leaderLeo

end

/-! ## What the updates change -/

section
variable {t : IsrTracker} {nowMs : Nat} {leaderLeo : Int} {state : FollowerState}

@[simp] theorem follower_recordNodeAlive :
    (t.recordNodeAlive node nowMs).follower n tp = t.follower n tp := rfl

theorem follower_updateFollowerOffset_self :
    (t.updateFollowerOffset node tp offset nowMs).follower node tp = some ⟨offset, nowMs⟩ :=
  AList.lookup_insert _

theorem follower_updateFollowerOffset_of_ne (h : ¬ (node = n ∧ tp = tp')) :
    (t.updateFollowerOffset node tp offset nowMs).follower n tp' = t.follower n tp' :=
  AList.lookup_insert_ne fun heq => h ⟨(congrArg Prod.fst heq).symm, (congrArg Prod.snd heq).symm⟩

theorem follower_removeNode (h : state ∈ (t.removeNode node).follower n tp) :
    state ∈ t.follower n tp :=
  AList.mem_lookup_iff.2 (mem_filter.1 (AList.mem_lookup_iff.1 h)).1

theorem nodeIsAlive_recordNodeAlive_of_ne (h : n ≠ node) :
    (t.recordNodeAlive node nowMs).NodeIsAlive n nowMs ↔ t.NodeIsAlive n nowMs := by
  rw [NodeIsAlive, recordNodeAlive, AList.lookup_insert_ne h]
  rfl

/-! ## In-sync followers -/

/-- The position is at the leader's end, or behind it by little and not for long. -/
def WithinLag (t : IsrTracker) (leaderLeo : Int) (nowMs : Nat) (state : FollowerState) : Prop :=
  leaderLeo ≤ state.lastOffset ∨
    (leaderLeo - state.lastOffset ≤ asI64 t.maxLagEntries ∧ nowMs - state.lastUpdateMs ≤ t.maxLagMs)
deriving Decidable

theorem WithinLag.of_le (h : t.WithinLag leaderLeo nowMs state)
    (hleo : leo ≤ leaderLeo) (hnow : now ≤ nowMs) : t.WithinLag leo now state := by
  rcases h with hcaught | ⟨hnear, hshort⟩
  · exact .inl (le_trans hleo hcaught)
  · exact .inr ⟨by omega, by omega⟩

theorem NodeIsAlive.of_le (h : t.NodeIsAlive node nowMs) (hnow : now ≤ nowMs) :
    t.NodeIsAlive node now := by
  intro last hlast
  have := h last hlast
  omega

theorem syncState_eq_inSync_iff (h : t.follower node tp = some state) :
    t.syncState node tp leaderLeo nowMs = .inSync ↔
      t.NodeIsAlive node nowMs ∧ t.WithinLag leaderLeo nowMs state := by
  rw [syncState, h]
  dsimp only
  split
  case isTrue hdead => exact ⟨fun hs => (by cases hs), fun hs => absurd hs.1 hdead⟩
  case isFalse halive =>
  have halive := not_not.1 halive
  split
  case isTrue hcaught => exact ⟨fun _ => ⟨halive, .inl hcaught⟩, fun _ => rfl⟩
  case isFalse hbehind =>
  split
  case isTrue hfar =>
    refine ⟨fun hs => (by cases hs), ?_⟩
    rintro ⟨-, hcaught | ⟨hnear, -⟩⟩
    · exact absurd hcaught hbehind
    · omega
  case isFalse hnear =>
    split
    case isTrue hlong =>
      refine ⟨fun hs => (by cases hs), ?_⟩
      rintro ⟨-, hcaught | ⟨-, hshort⟩⟩
      · exact absurd hcaught hbehind
      · omega
    case isFalse hshort =>
      exact ⟨fun _ => ⟨halive, .inr ⟨by omega, by omega⟩⟩, fun _ => rfl⟩

section
variable (h : t.syncState node tp leaderLeo nowMs = .inSync)
include h

theorem exists_follower_of_inSync : ∃ state, t.follower node tp = some state := by
  rw [syncState] at h
  split at h
  case h_1 => cases h
  case h_2 state hstate => exact ⟨state, hstate⟩

/-! ## The watermark -/

/-- An in-sync follower lowers the watermark to its position, where this is below the leader's end.
-/
theorem lowerWatermark_of_inSync (hstate : t.follower node tp = some state) :
    t.lowerWatermark tp leaderLeo nowMs acc node =
      (min acc.1 (leaderLeo - max (leaderLeo - state.lastOffset) 0), true) := by
  obtain ⟨halive, -⟩ := (syncState_eq_inSync_iff hstate).1 h
  rw [lowerWatermark, if_neg (not_not.2 h), getFollowerLag, hstate, Option.bind_some, if_pos halive]

end

theorem lowerWatermark_of_not_inSync (h : t.syncState node tp leaderLeo nowMs ≠ .inSync) :
    t.lowerWatermark tp leaderLeo nowMs acc node = acc := by
  rw [lowerWatermark, if_pos h]

theorem le_foldl_lowerWatermark {nodes : List Nat} (hb : b ≤ leaderLeo) :
    b ≤ (nodes.foldl (t.lowerWatermark tp leaderLeo nowMs) acc).1 ↔
      b ≤ acc.1 ∧ ∀ n ∈ nodes, t.syncState n tp leaderLeo nowMs = .inSync →
        ∀ state ∈ t.follower n tp, b ≤ state.lastOffset := by
  induction nodes generalizing acc with
  | nil => simp
  | cons n nodes ih =>
    rw [foldl_cons, ih, forall_mem_cons]
    by_cases hsync : t.syncState n tp leaderLeo nowMs = .inSync
    · obtain ⟨state, hstate⟩ := exists_follower_of_inSync hsync
      rw [lowerWatermark_of_inSync hsync hstate, hstate]
      simp only [hsync, Option.mem_some_iff, forall_eq', forall_const]
      rw [← and_assoc]
      refine and_congr_left fun _ => ?_
      omega
    · rw [lowerWatermark_of_not_inSync hsync]
      simp [hsync]

theorem foldl_lowerWatermark_of_false {nodes : List Nat}
    (h : (nodes.foldl (t.lowerWatermark tp leaderLeo nowMs) acc).2 = false) :
    nodes.foldl (t.lowerWatermark tp leaderLeo nowMs) acc = acc := by
  induction nodes using List.reverseRecOn with
  | nil => rfl
  | append_singleton nodes n ih =>
    rw [foldl_append, foldl_cons] at h ⊢
    by_cases hsync : t.syncState n tp leaderLeo nowMs = .inSync
    · obtain ⟨state, hstate⟩ := exists_follower_of_inSync hsync
      rw [lowerWatermark_of_inSync hsync hstate] at h
      cases h
    · rw [lowerWatermark_of_not_inSync hsync] at h ⊢
      exact ih h

theorem le_clampAt (h : 0 ≤ w) : b ≤ clampAt high w ↔ b ≤ high ∧ b ≤ w := by
  rw [clampAt]
  split <;> omega

/-- The watermark is the greatest number that is below the leader's end and below the position of
every in-sync follower. -/
theorem le_replicatedWatermark_iff {replicas : List Nat} (hleo : 0 ≤ leaderLeo)
    (hpos : ∀ n, ∀ state ∈ t.follower n tp, 0 ≤ state.lastOffset) :
    b ≤ t.replicatedWatermark tp leaderLeo replicas leaderId nowMs ↔
      b ≤ leaderLeo ∧ ∀ n ∈ replicas, n ≠ leaderId → t.syncState n tp leaderLeo nowMs = .inSync →
        ∀ state ∈ t.follower n tp, b ≤ state.lastOffset := by
  have hfold : ∀ {b : Int}, b ≤ leaderLeo →
      (b ≤ ((replicas.filter (· ≠ leaderId)).foldl (t.lowerWatermark tp leaderLeo nowMs)
          (leaderLeo, false)).1 ↔
        ∀ n ∈ replicas, n ≠ leaderId → t.syncState n tp leaderLeo nowMs = .inSync →
          ∀ state ∈ t.follower n tp, b ≤ state.lastOffset) := by
    intro b hb
    rw [le_foldl_lowerWatermark hb]
    simp only [hb, true_and, mem_filter, decide_eq_true_eq, and_imp]
  rw [replicatedWatermark]
  split
  case isTrue =>
    have hzero := (hfold hleo).2 fun n _ _ _ state hstate => hpos n state hstate
    rw [le_clampAt hzero]
    exact and_congr_right hfold
  case isFalse hnone =>
    have hsame := foldl_lowerWatermark_of_false (Bool.eq_false_iff.2 hnone)
    rw [hsame] at hfold
    exact ⟨fun hb => ⟨hb, (hfold hb).1 hb⟩, fun h => h.1⟩

/-! ## The live followers -/

/-- The node's last fetch of the partition is not longer ago than the bound. -/
def LiveAt (t : IsrTracker) (nowMs : Nat) (state : FollowerState) : Prop :=
  nowMs - state.lastUpdateMs ≤ t.maxLagMs
deriving Decidable

theorem le_foldl_min {offsets : List Int} :
    b ≤ offsets.foldl min offset ↔ b ≤ offset ∧ ∀ o ∈ offsets, b ≤ o := by
  induction offsets generalizing offset with
  | nil => simp
  | cons o offsets ih => rw [foldl_cons, ih, forall_mem_cons, le_min_iff, and_assoc]

theorem mem_known_iff : e ∈ t.followerOffsets.entries.filter (fun e => e.1.2 = tp) ↔
      e.1.2 = tp ∧ e.2 ∈ t.follower e.1.1 tp := by
  rw [mem_filter, decide_eq_true_eq, and_comm]
  refine and_congr_right fun htp => ?_
  cases htp
  exact AList.mem_lookup_iff.symm

theorem mem_liveOffsets_iff (t : IsrTracker) (tp : PartitionKey) (nowMs : Nat) (o : Int) :
    o ∈ ((t.followerOffsets.entries.filter fun e => e.1.2 = tp).filter fun e =>
      nowMs - e.2.lastUpdateMs ≤ t.maxLagMs).map (·.2.lastOffset) ↔
    ∃ n, ∃ state ∈ t.follower n tp, t.LiveAt nowMs state ∧ state.lastOffset = o := by
  rw [mem_map]
  constructor
  · rintro ⟨e, he, rfl⟩
    obtain ⟨hknown, hrecent⟩ := mem_filter.1 he
    exact ⟨e.1.1, e.2, (mem_known_iff.1 hknown).2, of_decide_eq_true hrecent, rfl⟩
  · rintro ⟨n, state, hstate, hrecent, rfl⟩
    exact ⟨⟨(n, tp), state⟩,
      mem_filter.2 ⟨mem_known_iff.2 ⟨rfl, hstate⟩, decide_eq_true hrecent⟩, rfl⟩

/-- The interlock's answer for an offset: every live follower is there, and if there are followers
one of them is live. -/
theorem forall_le_minAcked_iff (hb : unreplicated < b) :
    (∀ acked ∈ t.minAckedOffsetOfLiveFollowers tp nowMs, b ≤ acked) ↔
      (∀ n, ∀ state ∈ t.follower n tp, t.LiveAt nowMs state → b ≤ state.lastOffset) ∧
        ∀ n, ∀ state ∈ t.follower n tp, ∃ n', ∃ state' ∈ t.follower n' tp, t.LiveAt nowMs state' := by
  have hlive := t.mem_liveOffsets_iff tp nowMs
  rw [minAckedOffsetOfLiveFollowers]
  split
  case h_1 hnil =>
    rw [hnil] at hlive
    have hnone : ∀ n, ∀ state ∈ t.follower n tp, ¬ t.LiveAt nowMs state := fun n state hstate hrecent =>
      absurd ((hlive _).2 ⟨n, state, hstate, hrecent, rfl⟩) not_mem_nil
    split
    case isTrue hknown =>
      have hempty : ∀ n, ∀ state ∈ t.follower n tp, False := by
        intro n state hstate
        have hmem := (mem_known_iff (e := ⟨(n, tp), state⟩)).2 ⟨rfl, hstate⟩
        rw [hknown] at hmem
        cases hmem
      exact ⟨fun _ => ⟨fun n s hs => (hempty n s hs).elim, fun n s hs => (hempty n s hs).elim⟩,
        fun _ acked h => by cases h⟩
    case isFalse hknown =>
      obtain ⟨e, he⟩ := exists_mem_of_ne_nil _ hknown
      constructor
      · intro h
        have := h unreplicated rfl
        omega
      · rintro ⟨-, hsome⟩
        obtain ⟨n, state, hstate, hrecent⟩ := hsome e.1.1 e.2 (mem_known_iff.1 he).2
        exact absurd hrecent (hnone n state hstate)
  case h_2 offset offsets hcons =>
    rw [hcons] at hlive
    simp only [Option.mem_some_iff, forall_eq', le_foldl_min, ← forall_mem_cons]
    constructor
    · intro h
      refine ⟨fun n state hstate hrecent => h _ ((hlive _).2 ⟨n, state, hstate, hrecent, rfl⟩), ?_⟩
      obtain ⟨n, state, hstate, hrecent, -⟩ := (hlive offset).1 (.head _)
      exact fun _ _ _ => ⟨n, state, hstate, hrecent⟩
    · rintro ⟨h, -⟩ o ho
      obtain ⟨n, state, hstate, hrecent, rfl⟩ := (hlive o).1 ho
      exact h n state hstate hrecent

end

end IsrTracker

end ChronikStream
