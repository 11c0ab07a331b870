import ChronikStream.Replication.IsrTracker
import Mathlib.Data.List.Dedup

/-!
# The retention interlock

`fully_replicated` keeps a segment where a live follower is below the highest offset the segment
has. A position is the offset a follower fetches from, and the comparison treats it as the last one
it has: this is the only way in which the interlock is unsound (`interlock_sound_iff`).
-/

namespace ChronikStream

open List Option

structure FollowerFetchEvent where
  node : Nat
  tp : PartitionKey
  offset : Int
  atMs : Nat

namespace RetentionInterlock

def trackFetches (t : IsrTracker) (fetches : List FollowerFetchEvent) : IsrTracker :=
  fetches.foldl (fun t f => (t.updateFollowerOffset f.node f.tp f.offset f.atMs).recordNodeAlive
    f.node f.atMs) t

section
variable (maxLagMs : Nat) (fetches : List FollowerFetchEvent)

def lastFetch (node : Nat) (tp : PartitionKey) : Option FollowerFetchEvent :=
  (fetches.filter fun f => f.node = node ∧ f.tp = tp).getLast?

/-- The highest offset a segment has per partition; one without an offset is left out. -/
def tpMaxOffsets (segment : List (PartitionKey × Int)) : List (PartitionKey × Int) :=
  ((segment.map Prod.fst).dedup.map fun tp =>
    (tp, ((segment.filter (·.1 = tp)).map Prod.snd).max?.getD (-1))).filter (0 ≤ ·.2)

/-- The partition that holds the segment back, with how far it is and has to be. Without a source of
progress nothing does. -/
def fullyReplicated (progress : Option IsrTracker) (nowMs : Nat) :
    List (PartitionKey × Int) → Except (PartitionKey × Int × Int) Unit
  | [] => .ok ()
  | (tp, maxOffset) :: rest =>
    match progress.bind fun t => t.minAckedOffsetOfLiveFollowers tp nowMs with
    | none => fullyReplicated progress nowMs rest
    | some acked =>
      if acked < maxOffset then .error (tp, acked, maxOffset) else fullyReplicated progress nowMs rest

def mayDeleteWalSegment (deleteAfterIndex : Bool) (errorsAtStart errorsNow : Nat) : Bool :=
  deleteAfterIndex && errorsNow == errorsAtStart

/-- The deletion gate of `index_segment`: whether the segment is deleted. -/
def deletesSegment (progress : Option IsrTracker) (nowMs : Nat) (segment : List (PartitionKey × Int))
    (deleteAfterIndex : Bool) (errorsAtStart errorsNow : Nat) : Bool :=
  match fullyReplicated progress nowMs (tpMaxOffsets segment) with
  | .error _ => false
  | .ok _ => mayDeleteWalSegment deleteAfterIndex errorsAtStart errorsNow

/-- The node's last fetch of the partition is `f`, and not longer ago than the bound. -/
def LiveFollower (nowMs node : Nat) (tp : PartitionKey) (f : FollowerFetchEvent) : Prop :=
  lastFetch fetches node tp = some f ∧ nowMs - f.atMs ≤ maxLagMs

/-- A follower that fetches from an offset holds the records below it. -/
def Holds (f : FollowerFetchEvent) (offset : Int) : Prop := offset < f.offset

/-- A live follower is below one of the segment's offsets, or a partition has followers and no live
one. -/
def HeldBack (nowMs : Nat) (segment : List (PartitionKey × Int)) : Prop :=
  ∃ r ∈ segment, 0 ≤ r.2 ∧
    ((∃ node f, LiveFollower maxLagMs fetches nowMs node r.1 f ∧ f.offset < r.2) ∨
      ((∃ node f, lastFetch fetches node r.1 = some f) ∧
        ∀ node f, ¬ LiveFollower maxLagMs fetches nowMs node r.1 f))

end

section
variable {fetches : List FollowerFetchEvent} {f : FollowerFetchEvent}
  {node nowMs maxLagEntries maxLagMs : Nat} {segment : List (PartitionKey × Int)}

/-! ## The tracker after a sequence of fetches -/

theorem trackFetches_concat : trackFetches t (fetches ++ [f]) =
    ((trackFetches t fetches).updateFollowerOffset f.node f.tp f.offset f.atMs).recordNodeAlive
      f.node f.atMs := by
  rw [trackFetches, foldl_append]
  rfl

theorem lastFetch_concat : lastFetch (fetches ++ [f]) node tp =
    if f.node = node ∧ f.tp = tp then some f else lastFetch fetches node tp := by
  rw [lastFetch, filter_append]
  split
  case isTrue hf => rw [filter_singleton, decide_eq_true hf]; simp
  case isFalse hf => rw [filter_singleton, decide_eq_false hf]; simp [lastFetch]

theorem follower_trackFetches : (trackFetches (.new maxLagEntries maxLagMs) fetches).follower node tp =
    (lastFetch fetches node tp).map fun f => ⟨f.offset, f.atMs⟩ := by
  induction fetches using List.reverseRecOn with
  | nil => rfl
  | append_singleton fetches f ih =>
    rw [trackFetches_concat, lastFetch_concat, IsrTracker.follower_recordNodeAlive]
    split
    case isTrue hf =>
      obtain ⟨rfl, rfl⟩ := hf
      exact IsrTracker.follower_updateFollowerOffset_self
    case isFalse hf => rw [IsrTracker.follower_updateFollowerOffset_of_ne hf, ih]

@[simp] theorem maxLagMs_trackFetches : (trackFetches t fetches).maxLagMs = t.maxLagMs := by
  induction fetches using List.reverseRecOn with
  | nil => rfl
  | append_singleton fetches f ih =>
    rw [trackFetches_concat]
    exact ih

/-! ## What the interlock asks -/

theorem fullyReplicated_eq_ok_iff : fullyReplicated (some t) nowMs maxes = .ok () ↔
    ∀ x ∈ maxes, ∀ acked ∈ t.minAckedOffsetOfLiveFollowers x.1 nowMs, x.2 ≤ acked := by
  induction maxes with
  | nil => simp [fullyReplicated]
  | cons x maxes ih =>
    rw [fullyReplicated, bind_some, forall_mem_cons, ← ih]
    split
    case h_1 hnone => simp [hnone]
    case h_2 acked hsome =>
    rw [hsome]
    simp only [mem_some_iff, forall_eq']
    split
    case isTrue hlt => exact ⟨fun h => (by cases h), fun h => absurd h.1 (not_le.2 hlt)⟩
    case isFalse hle => exact ⟨fun h => ⟨not_lt.1 hle, h⟩, fun h => h.2⟩

theorem mem_of_mem_tpMaxOffsets (h : (tp, m) ∈ tpMaxOffsets segment) : 0 ≤ m ∧ (tp, m) ∈ segment := by
  obtain ⟨hmem, hdec⟩ := mem_filter.1 h
  have hm : 0 ≤ m := of_decide_eq_true hdec
  obtain ⟨tp', -, heq⟩ := mem_map.1 hmem
  obtain ⟨rfl, hmax⟩ := Prod.mk.injEq _ _ _ _ ▸ heq
  refine ⟨hm, ?_⟩
  cases hcase : ((segment.filter (·.1 = tp')).map Prod.snd).max? with rw [hcase] at hmax
  | none =>
    have : (-1 : Int) = m := hmax
    omega
  | some k =>
  have hk : k = m := hmax
  subst hk
  obtain ⟨r, hr, rfl⟩ := mem_map.1 (max?_mem hcase)
  obtain ⟨hr, htp⟩ := mem_filter.1 hr
  have htp : r.1 = tp' := of_decide_eq_true htp
  rw [← htp]
  exact hr

theorem exists_mem_tpMaxOffsets (hr : r ∈ segment) (h : 0 ≤ r.2) :
    ∃ m, (r.1, m) ∈ tpMaxOffsets segment ∧ r.2 ≤ m := by
  have hmem : r.2 ∈ (segment.filter (·.1 = r.1)).map Prod.snd :=
    mem_map_of_mem (mem_filter.2 ⟨hr, decide_eq_true rfl⟩)
  cases hmax : ((segment.filter (·.1 = r.1)).map Prod.snd).max? with
  | none =>
    rw [max?_eq_none_iff.1 hmax] at hmem
    cases hmem
  | some m =>
  have hle : r.2 ≤ m := (max?_eq_some_iff.1 hmax).2 r.2 hmem
  refine ⟨m, mem_filter.2 ⟨mem_map.2 ⟨r.1, ?_, ?_⟩, decide_eq_true ?_⟩, hle⟩
  · exact mem_dedup.2 (mem_map_of_mem hr)
  · rw [hmax]
    rfl
  · exact le_trans h hle

theorem forall_le_minAcked_trackFetches (hm : 0 ≤ m) :
    (∀ acked ∈ (trackFetches (.new maxLagEntries maxLagMs) fetches).minAckedOffsetOfLiveFollowers tp
        nowMs, m ≤ acked) ↔
      (∀ node f, LiveFollower maxLagMs fetches nowMs node tp f → m ≤ f.offset) ∧
        ∀ node f, lastFetch fetches node tp = some f →
          ∃ node' f', LiveFollower maxLagMs fetches nowMs node' tp f' := by
  have hreal : unreplicated < m := by
    show -1 < m
    omega
  rw [IsrTracker.forall_le_minAcked_iff hreal]
  simp only [mem_def, follower_trackFetches, map_eq_some_iff, IsrTracker.LiveAt,
    maxLagMs_trackFetches, LiveFollower]
  constructor
  · rintro ⟨hlive, hsome⟩
    refine ⟨fun node f ⟨hf, hrecent⟩ => hlive node _ ⟨f, hf, rfl⟩ hrecent, fun node f hf => ?_⟩
    obtain ⟨node', _, ⟨f', hf', rfl⟩, hrecent⟩ := hsome node _ ⟨f, hf, rfl⟩
    exact ⟨node', f', hf', hrecent⟩
  · rintro ⟨hlive, hsome⟩
    constructor
    · rintro node _ ⟨f, hf, rfl⟩ hrecent
      exact hlive node f ⟨hf, hrecent⟩
    · rintro node _ ⟨f, hf, rfl⟩
      obtain ⟨node', f', hf', hrecent⟩ := hsome node f hf
      exact ⟨node', _, ⟨f', hf', rfl⟩, hrecent⟩

/-- The interlock allows the deletion exactly where nothing is held back. -/
theorem fullyReplicated_tpMaxOffsets :
    fullyReplicated (some (trackFetches (.new maxLagEntries maxLagMs) fetches)) nowMs
        (tpMaxOffsets segment) = .ok () ↔ ¬ HeldBack maxLagMs fetches nowMs segment := by
  rw [fullyReplicated_eq_ok_iff]
  constructor
  · rintro h ⟨r, hr, hpos, hheld⟩
    obtain ⟨m, hm, hle⟩ := exists_mem_tpMaxOffsets hr hpos
    obtain ⟨hlive, hsome⟩ := (forall_le_minAcked_trackFetches (le_trans hpos hle)).1 (h _ hm)
    rcases hheld with ⟨node, f, hf, hbelow⟩ | ⟨⟨node, f, hf⟩, hdead⟩
    · have := hlive node f hf
      omega
    · obtain ⟨node', f', hf'⟩ := hsome node f hf
      exact hdead node' f' hf'
  · rintro h ⟨tp, m⟩ hm
    obtain ⟨hpos, hr⟩ := mem_of_mem_tpMaxOffsets hm
    refine (forall_le_minAcked_trackFetches hpos).2 ⟨fun node f hf => ?_, fun node f hf => ?_⟩
    · by_contra hbelow
      exact h ⟨_, hr, hpos, .inl ⟨node, f, hf, not_le.1 hbelow⟩⟩
    · by_contra hdead
      exact h ⟨_, hr, hpos, .inr ⟨⟨node, f, hf⟩, fun node' f' hf' => hdead ⟨node', f', hf'⟩⟩⟩

/-- The gate deletes a segment where the interlock allows it, if deletion is configured and the pass
had no error. -/
theorem deletesSegment_eq_true_iff :
    deletesSegment progress nowMs segment deleteAfterIndex errorsAtStart errorsNow = true ↔
      fullyReplicated progress nowMs (tpMaxOffsets segment) = .ok () ∧
        mayDeleteWalSegment deleteAfterIndex errorsAtStart errorsNow = true := by
  rw [deletesSegment]
  cases fullyReplicated progress nowMs (tpMaxOffsets segment) with
  | error | ok => simp

/-- The interlock is sound exactly where it keeps the segment or no live follower asks for the last
offset of a record. -/
theorem interlock_sound_iff (maxLagEntries maxLagMs : Nat) (fetches : List FollowerFetchEvent)
    (nowMs : Nat) (segment : List (PartitionKey × Int)) :
    (∀ deleteAfterIndex errorsAtStart errorsNow,
      deletesSegment (some (trackFetches (.new maxLagEntries maxLagMs) fetches)) nowMs segment
          deleteAfterIndex errorsAtStart errorsNow = true →
        ∀ r ∈ segment, ∀ node f, LiveFollower maxLagMs fetches nowMs node r.1 f →
          ∀ offset, 0 ≤ offset → offset ≤ r.2 → Holds f offset) ↔
      HeldBack maxLagMs fetches nowMs segment ∨
        ∀ r ∈ segment, 0 ≤ r.2 → ∀ node f, LiveFollower maxLagMs fetches nowMs node r.1 f →
          f.offset ≠ r.2 := by
  constructor
  · intro h
    refine or_iff_not_imp_left.2 fun hfree r hr hpos node f hf heq => ?_
    have hdeletes : deletesSegment (some (trackFetches (.new maxLagEntries maxLagMs) fetches)) nowMs
        segment true 0 0 = true :=
      deletesSegment_eq_true_iff.2 ⟨fullyReplicated_tpMaxOffsets.2 hfree, rfl⟩
    have hholds : r.2 < f.offset := h true 0 0 hdeletes r hr node f hf r.2 hpos (le_refl _)
    omega
  · intro h _ _ _ hdeletes r hr node f hf offset hpos hle
    have hfree := fullyReplicated_tpMaxOffsets.1 (deletesSegment_eq_true_iff.1 hdeletes).1
    have hr2 : 0 ≤ r.2 := le_trans hpos hle
    have hreached : ¬ f.offset < r.2 := fun hbelow => hfree ⟨r, hr, hr2, .inl ⟨node, f, hf, hbelow⟩⟩
    have hne := (h.resolve_left hfree) r hr hr2 node f hf
    show offset < f.offset
    omega

end

/-! ## A follower that asks for the last record -/

namespace RetentionFixture

def segment : List (PartitionKey × Int) := [(("orders", 0), 49), (("orders", 0), 100)]

/-- A follower that holds everything below 100, and asks for 100. -/
def oneBehind : List FollowerFetchEvent := [⟨2, ("orders", 0), 50, 0⟩, ⟨2, ("orders", 0), 100, 10⟩]

end RetentionFixture

/-- The segment may be deleted while the only follower does not hold its last record. -/
theorem interlock_releases_missing_record :
    ¬ ∀ (maxLagEntries maxLagMs : Nat) (fetches : List FollowerFetchEvent) (nowMs : Nat)
      (segment : List (PartitionKey × Int)) (deleteAfterIndex : Bool) (errorsAtStart errorsNow : Nat),
      deletesSegment (some (trackFetches (.new maxLagEntries maxLagMs) fetches)) nowMs segment
          deleteAfterIndex errorsAtStart errorsNow = true →
        ∀ r ∈ segment, ∀ node f, LiveFollower maxLagMs fetches nowMs node r.1 f →
          ∀ offset, 0 ≤ offset → offset ≤ r.2 → Holds f offset := by
  intro h
  have hholds : Holds ⟨2, ("orders", 0), 100, 10⟩ 100 :=
    h 10000 10000 RetentionFixture.oneBehind 20 RetentionFixture.segment true 0 0 (by decide +kernel)
      (("orders", 0), 100) (.tail _ (.head _)) 2 ⟨2, ("orders", 0), 100, 10⟩ ⟨rfl, by decide⟩ 100
      (by decide) (by decide)
  exact absurd hholds (lt_irrefl _)

end RetentionInterlock

end ChronikStream
