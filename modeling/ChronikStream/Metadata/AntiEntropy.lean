import ChronikStream.Metadata.Store

/-!
# Anti-entropy of the topic catalog

The leader re-broadcasts its topics, their assignments and the list of names; a follower applies the
events and drops what is not in the list. A `TopicCreated` for a topic that exists is merged into it
and an older assignment is ignored, so a missed update is not healed (`update_not_healed`).
`healed_iff` says exactly what is.
-/

namespace ChronikStream.Metadata

open List Option MetadataState

/-! ## The pass -/

/-- `starts_with("__")`. -/
def Internal (name : String) : Prop := "__".toList <+: name.toList
deriving Decidable

/-- The keys of a map, each once, in the order of an iteration. -/
structure Lists {κ α : Type*} (keys : List κ) (map : κ → Option α) : Prop where
  nodup : keys.Nodup
  mem_iff : ∀ k, k ∈ keys ↔ (map k).isSome

/-- The payloads of `broadcast_all_topics`: the assignments come after the topics. -/
def MetadataState.broadcastAllTopics (s : MetadataState) (topics : List String)
    (assignments : List (String × Nat)) : List MetadataEventPayload :=
  (topics.filterMap fun name =>
    if Internal name then none
    else (s.topics name).map fun metadata => .topicCreated name metadata.config metadata.autoCreated) ++
  assignments.filterMap fun key =>
    (s.partitionAssignments key).bind fun assignment =>
      if Internal assignment.topic then none else some (.partitionAssigned assignment)

/-- The snapshot, if it is published: it is not empty, and as large as that of the last pass. -/
def broadcastCatalogSnapshot (topics : List String) (lastSnapshotSize : Option Nat) :
    Option (List String) :=
  let topics := topics.filter (¬ Internal ·)
  if topics = [] then none else if lastSnapshotSize = some topics.length then some topics else none

/-- A follower, with the time of the newest snapshot it has applied. -/
structure CatalogFollower where
  state : MetadataState
  lastCatalogSnapshot : Option Int

/-- The switch and the guard against mass deletions; `refuses wouldPrune localTotal` is a comparison
of floats. -/
structure PruneConfig where
  enabled : Bool
  refuses : Nat → Nat → Bool

namespace CatalogFollower

def stale (localTopics authoritative : List String) : List String :=
  localTopics.filter fun name => ¬ Internal name ∧ name ∉ authoritative

/-- `reconcile_catalog`; a stale topic is deleted as by an ordinary event. -/
def reconcileCatalog (f : CatalogFollower) (config : PruneConfig)
    (localTopics authoritative : List String) (snapshotAt : Int) : CatalogFollower :=
  if config.enabled = false then f
  else if authoritative = [] then f
  else if ∃ prev ∈ f.lastCatalogSnapshot, snapshotAt ≤ prev then f
  else
    let f := { f with lastCatalogSnapshot := some snapshotAt }
    let stale := stale localTopics authoritative
    if stale = [] then f
    else if config.refuses stale.length (localTopics.filter (¬ Internal ·)).length then f
    else { f with state := stale.foldl .deleteTopic f.state }

/-- The events of the broadcast are applied, and then the snapshot. -/
def applyPass (f : CatalogFollower) (config : PruneConfig) (events : List MetadataEvent)
    (localTopics authoritative : List String) (snapshotAt : Int) : CatalogFollower :=
  { f with state := f.state.replayEvents events }.reconcileCatalog config localTopics authoritative
    snapshotAt

end CatalogFollower

/-- The non-internal topics have the leader's configurations, and their assignments are the
leader's. -/
structure Healed (leader follower : MetadataState) : Prop where
  topics : ∀ name, ¬ Internal name →
    (follower.topics name).map (·.config) = (leader.topics name).map (·.config)
  assignments : ∀ key : String × Nat, ¬ Internal key.1 →
    follower.partitionAssignments key = leader.partitionAssignments key

/-- The follower has a topic that the leader does not have. -/
def StaleTopic (leader follower : MetadataState) (name : String) : Prop :=
  (follower.topics name).isSome ∧ leader.topics name = none

/-- A `TopicCreated` with the leader's configuration replaces the one that is there. -/
def TopicMetadata.ReplacedBy (existing l : TopicMetadata) : Prop :=
  existing.autoCreated = true ∧ l.autoCreated = false ∨
    existing.autoCreated = l.autoCreated ∧ existing.config.partitionCount < l.config.partitionCount

/-- The two differ at most in keys that the first does not have. -/
structure TopicConfig.Below (c l : TopicConfig) : Prop where
  partitionCount : c.partitionCount = l.partitionCount
  replicationFactor : c.replicationFactor = l.replicationFactor
  retentionMs : c.retentionMs = l.retentionMs
  segmentBytes : c.segmentBytes = l.segmentBytes
  config : ∀ k v, c.config.get? k = some v → l.config.get? k = some v

/-- What the pass can heal: a configuration that is replaced or lacks nothing but keys, and no
assignment that is newer or that the leader does not have, but for those of a stale topic. -/
structure Healable (leader follower : MetadataState) : Prop where
  topics : ∀ name, ¬ Internal name → ∀ l ∈ leader.topics name, ∀ existing ∈ follower.topics name,
    existing.ReplacedBy l ∨ existing.config.Below l.config
  assigned : ∀ key : String × Nat, ¬ Internal key.1 → ¬ StaleTopic leader follower key.1 →
    ∀ a ∈ leader.partitionAssignments key, ∀ b ∈ follower.partitionAssignments key,
      b.leaderEpoch ≤ a.leaderEpoch
  unassigned : ∀ key : String × Nat, ¬ Internal key.1 → ¬ StaleTopic leader follower key.1 →
    leader.partitionAssignments key = none → follower.partitionAssignments key = none
  stale : ∀ key : String × Nat, ¬ Internal key.1 → StaleTopic leader follower key.1 →
    leader.partitionAssignments key = none

/-! ## What the events of a pass do to a cell -/

section
variable {s leader : MetadataState} {es : List MetadataEvent} {e : MetadataEvent} {c : Cell}
  {topics : List String} {keys : List (String × Nat)} {p : MetadataEventPayload}

theorem read_replayEvents_of_not_touches (h : ∀ e ∈ es, ¬ e.payload.Touches c) :
    c.read (s.replayEvents es) = c.read s := by
  induction es generalizing s with
  | nil => rfl
  | cons e es ih =>
    have hrest := ih (s := s.apply e) fun x hx => h x (.tail _ hx)
    exact hrest.trans ((localTo_apply e).frame s c (h e (.head _)))

/-- A cell that one event touches is changed by this event alone. -/
theorem read_replayEvents_of_unique (hmem : e ∈ es) (htouches : e.payload.Touches c)
    (hpair : es.Pairwise fun x y => ¬ (x.payload.Touches c ∧ y.payload.Touches c)) :
    ∃ s' : MetadataState, c.read s' = c.read s ∧ c.read (s.replayEvents es) = c.read (s'.apply e) := by
  obtain ⟨front, back, rfl⟩ := append_of_mem hmem
  obtain ⟨-, hback, hfront⟩ := pairwise_append.1 hpair
  refine ⟨s.replayEvents front, read_replayEvents_of_not_touches fun x hx hxc => ?_, ?_⟩
  · exact hfront x hx e (.head _) ⟨hxc, htouches⟩
  · have hsplit : s.replayEvents (front ++ e :: back) =
        ((s.replayEvents front).apply e).replayEvents back := foldl_append
    rw [hsplit]
    refine read_replayEvents_of_not_touches fun x hx hxc => ?_
    exact (pairwise_cons.1 hback).1 x hx ⟨htouches, hxc⟩

theorem mem_broadcastAllTopics : p ∈ leader.broadcastAllTopics topics keys ↔
    (∃ name ∈ topics, ¬ Internal name ∧ ∃ l ∈ leader.topics name,
      p = .topicCreated name l.config l.autoCreated) ∨
    (∃ key ∈ keys, ∃ a ∈ leader.partitionAssignments key,
      ¬ Internal a.topic ∧ p = .partitionAssigned a) := by
  rw [MetadataState.broadcastAllTopics, mem_append, mem_filterMap, mem_filterMap]
  refine or_congr ?_ ?_
  · refine exists_congr fun name => and_congr_right fun _ => ?_
    rw [ite_none_left_eq_some, map_eq_some_iff]
    simp only [mem_def, eq_comm]
  · refine exists_congr fun key => and_congr_right fun _ => ?_
    rw [bind_eq_some_iff]
    refine exists_congr fun a => and_congr_right fun _ => ?_
    rw [ite_none_left_eq_some, some.injEq, eq_comm (a := p)]

/-- Every assignment stands under its own key. -/
def WellKeyed (s : MetadataState) : Prop := ∀ key, ∀ a ∈ s.partitionAssignments key, a.key = key

theorem WellKeyed.apply (h : WellKeyed s) (e : MetadataEvent) : WellKeyed (s.apply e) := by
  intro key a ha
  by_cases htouches : e.payload.Touches (.partitionAssignment key)
  · obtain ⟨eventId, timestamp, payload⟩ := e
    cases payload with
    | partitionAssigned assignment =>
      obtain rfl : key = assignment.key := htouches
      simp only [MetadataState.apply, Function.update_self] at ha
      obtain rfl := some.inj ha
      rcases supersedes_cases (s.partitionAssignments assignment.key) assignment with
        ⟨existing, hexisting, -, heq⟩ | ⟨-, heq⟩
      · rw [heq]
        exact h _ existing hexisting
      · rw [heq]
    | topicDeleted name =>
      have hnone : (s.deleteTopic name).partitionAssignments key = none := if_pos htouches
      rw [show (s.apply ⟨eventId, timestamp, .topicDeleted name⟩).partitionAssignments key = none
        from hnone] at ha
      cases ha
    | _ => exact htouches.elim
  · have hsame : (s.apply e).partitionAssignments key = s.partitionAssignments key :=
      read_apply_of_not_touches htouches
    rw [hsame] at ha
    exact h key a ha

theorem wellKeyed_replayEvents (nodeId : UInt64) (es : List MetadataEvent) :
    WellKeyed ((new nodeId).replayEvents es) := by
  have hfold : ∀ s : MetadataState, WellKeyed s → WellKeyed (s.replayEvents es) := by
    induction es with
    | nil => exact fun s h => h
    | cons e es ih => exact fun s h => ih (s.apply e) (h.apply e)
  exact hfold _ fun _ _ h => (by cases h)

theorem pairwise_broadcastAllTopics (htopics : topics.Nodup) (hkeys : keys.Nodup)
    (hkeyed : WellKeyed leader) (hc : ∀ key, c ≠ .partitionOffset key) :
    (leader.broadcastAllTopics topics keys).Pairwise fun x y => ¬ (x.Touches c ∧ y.Touches c) := by
  refine pairwise_append.2 ⟨?_, ?_, fun x hx y hy => ?_⟩
  · refine List.Pairwise.filterMap _ (fun name name' hne x hx y hy => ?_) htopics
    rw [ite_none_left_eq_some, map_eq_some_iff] at hx hy
    obtain ⟨-, l, -, rfl⟩ := hx
    obtain ⟨-, l', -, rfl⟩ := hy
    rintro ⟨hx, hy⟩
    cases c with
    | topic name'' => exact hne (hx.symm.trans hy)
    | partitionOffset key => exact hc key rfl
    | _ => exact hx
  · refine List.Pairwise.filterMap _ (fun key key' hne x hx y hy => ?_) hkeys
    obtain ⟨a, ha, hx⟩ := bind_eq_some_iff.1 hx
    obtain ⟨a', ha', hy⟩ := bind_eq_some_iff.1 hy
    rw [ite_none_left_eq_some, some.injEq] at hx hy
    obtain ⟨-, rfl⟩ := hx
    obtain ⟨-, rfl⟩ := hy
    rintro ⟨hx, hy⟩
    cases c with
    | partitionAssignment key'' =>
      have hx : key'' = a.key := hx
      have hy : key'' = a'.key := hy
      rw [hkeyed key a ha] at hx
      rw [hkeyed key' a' ha'] at hy
      exact hne (hx.symm.trans hy)
    | _ => exact hx
  · obtain ⟨name, -, hx⟩ := mem_filterMap.1 hx
    obtain ⟨key, -, hy⟩ := mem_filterMap.1 hy
    obtain ⟨a, -, hy⟩ := bind_eq_some_iff.1 hy
    rw [ite_none_left_eq_some, map_eq_some_iff] at hx
    rw [ite_none_left_eq_some, some.injEq] at hy
    obtain ⟨-, l, -, rfl⟩ := hx
    obtain ⟨-, rfl⟩ := hy
    rintro ⟨hx, hy⟩
    cases c with
    | partitionAssignment => exact hx
    | _ => exact hy

end

/-! ## The follower after the pass -/

section
variable {leader follower : MetadataState} {topics : List String} {keys : List (String × Nat)}
  {es : List MetadataEvent} {name : String} {key : String × Nat}

theorem config_createdTopic (existing : Option TopicMetadata) (e : MetadataEvent) (name : String)
    (config : TopicConfig) (autoCreated : Bool) :
    (createdTopic existing e name config autoCreated).config =
      existing.elim config fun f => (f.createAgain config autoCreated 0).config := by
  cases existing with
  | none => rfl
  | some f =>
  show (f.createAgain config autoCreated e.timestamp).config = _
  simp only [TopicMetadata.createAgain, TopicMetadata.merge, Option.elim]
  split <;> try rfl
  split <;> try rfl
  split <;> rfl

theorem insertMissing_eq_iff {m l : OrderedMap String String} :
    m.insertMissing l.entries = l ↔ ∀ k v, m.get? k = some v → l.get? k = some v := by
  constructor
  · intro h k v hv
    rw [← h, OrderedMap.get?_insertMissing, hv]
    rfl
  · intro h
    refine OrderedMap.ext_get? fun k => OrderedMap.get?_insertMissing.trans ?_
    cases hk : m.get? k with
    | none => rfl
    | some v => exact (h k v hk).symm

theorem TopicConfig.merge_eq_iff {c l : TopicConfig} :
    { c with config := c.config.insertMissing l.config.entries } = l ↔ c.Below l := by
  rw [TopicConfig.mk.injEq]
  constructor
  · rintro ⟨hcount, hfactor, hretention, hbytes, hconfig⟩
    exact ⟨hcount, hfactor, hretention, hbytes, insertMissing_eq_iff.1 hconfig⟩
  · intro h
    exact ⟨h.partitionCount, h.replicationFactor, h.retentionMs, h.segmentBytes,
      insertMissing_eq_iff.2 h.config⟩

section
variable {existing l : TopicMetadata}
include existing

theorem config_createAgain_of_replacedBy (h : existing.ReplacedBy l) :
    (existing.createAgain l.config l.autoCreated 0).config = l.config := by
  rcases h with ⟨hexisting, hl⟩ | ⟨hauto, hcount⟩
  · simp [TopicMetadata.createAgain, hexisting, hl]
  · simp [TopicMetadata.createAgain, hauto, hcount]

theorem config_createAgain_of_not_replacedBy (h : ¬ existing.ReplacedBy l) :
    (existing.createAgain l.config l.autoCreated 0).config =
      { existing.config with
        config := existing.config.config.insertMissing l.config.config.entries } := by
  rw [TopicMetadata.ReplacedBy, not_or] at h
  rw [TopicMetadata.createAgain]
  split
  case isTrue => rfl
  case isFalse hkept =>
  rw [if_neg fun hauto => h.1 ⟨hauto.2, by simpa using hauto.1⟩]
  rw [if_neg fun hcount => h.2 ⟨?_, hcount⟩]
  · rfl
  · have hnot := h.1
    revert hkept hnot
    cases existing.autoCreated <;> cases l.autoCreated <;> simp

/-- What a `TopicCreated` makes of a configuration is the leader's if it replaces it, or completes
it. -/
theorem config_createAgain_eq_iff :
    (existing.createAgain l.config l.autoCreated 0).config = l.config ↔
      existing.ReplacedBy l ∨ existing.config.Below l.config := by
  by_cases h : existing.ReplacedBy l
  · exact iff_of_true (config_createAgain_of_replacedBy h) (.inl h)
  · rw [config_createAgain_of_not_replacedBy h, TopicConfig.merge_eq_iff, or_iff_right h]

end

/-- The events are those of a broadcast of the leader. -/
structure Broadcast (leader : MetadataState) (es : List MetadataEvent) : Prop where
  listed : ∃ topics keys, Lists topics leader.topics ∧ Lists keys leader.partitionAssignments ∧
    es.map (·.payload) = leader.broadcastAllTopics topics keys

section
variable (h : Broadcast leader es)
include h

theorem Broadcast.mem_iff : p ∈ es.map (·.payload) ↔
      (∃ name, ¬ Internal name ∧
        ∃ l ∈ leader.topics name, p = .topicCreated name l.config l.autoCreated) ∨
      (∃ key, ∃ a ∈ leader.partitionAssignments key, ¬ Internal a.topic ∧ p = .partitionAssigned a) := by
  obtain ⟨topics, keys, htopics, hkeys, hes⟩ := h.listed
  rw [hes, mem_broadcastAllTopics]
  refine or_congr (exists_congr fun name => ?_) (exists_congr fun key => ?_)
  · refine and_iff_right_of_imp ?_
    rintro ⟨-, l, hl, -⟩
    exact (htopics.mem_iff name).2 (isSome_iff_exists.2 ⟨l, hl⟩)
  · refine and_iff_right_of_imp ?_
    rintro ⟨a, ha, -⟩
    exact (hkeys.mem_iff key).2 (isSome_iff_exists.2 ⟨a, ha⟩)

theorem Broadcast.topics_of_not_leader (hl : leader.topics name = none) :
    (follower.replayEvents es).topics name = follower.topics name := by
  refine read_replayEvents_of_not_touches (c := .topic name) fun e he htouches => ?_
  rcases h.mem_iff.1 (mem_map_of_mem he) with
    ⟨name', -, l, hl', hpayload⟩ | ⟨key, a, -, -, hpayload⟩
  · rw [hpayload] at htouches
    obtain rfl : name = name' := htouches
    rw [hl] at hl'
    cases hl'
  · rw [hpayload] at htouches
    exact htouches

variable (hkeyed : WellKeyed leader)
include hkeyed

theorem Broadcast.pairwise (hc : ∀ key, c ≠ .partitionOffset key) :
    es.Pairwise fun x y => ¬ (x.payload.Touches c ∧ y.payload.Touches c) := by
  obtain ⟨topics, keys, htopics, hkeys, hes⟩ := h.listed
  have hpayloads := pairwise_broadcastAllTopics htopics.nodup hkeys.nodup hkeyed hc
  rw [← hes] at hpayloads
  exact pairwise_map.1 hpayloads

theorem Broadcast.topics_of_leader (hname : ¬ Internal name) (hl : leader.topics name = some l) :
    ∃ e, (follower.replayEvents es).topics name =
      some (createdTopic (follower.topics name) e name l.config l.autoCreated) := by
  have hmem := h.mem_iff.2 (.inl ⟨name, hname, l, hl, rfl⟩)
  obtain ⟨e, he, hpayload⟩ := mem_map.1 hmem
  have htouches : e.payload.Touches (.topic name) := by
    rw [hpayload]
    exact rfl
  obtain ⟨s', hcell, hresult⟩ := read_replayEvents_of_unique (s := follower) he htouches
    (h.pairwise hkeyed fun key hc => by cases hc)
  have hcell : s'.topics name = follower.topics name := hcell
  have hresult : (follower.replayEvents es).topics name = (s'.apply e).topics name := hresult
  refine ⟨e, ?_⟩
  rw [hresult, ← hcell, MetadataState.apply, hpayload]
  exact Function.update_self _ _ _

/-- An assignment of the leader is applied unless the follower's is newer. -/
theorem Broadcast.assignments_of_leader (hname : ¬ Internal key.1)
    (ha : leader.partitionAssignments key = some a) :
    (follower.replayEvents es).partitionAssignments key =
      some (supersedes (follower.partitionAssignments key) a) := by
  obtain rfl : a.key = key := hkeyed key a ha
  have hmem := h.mem_iff.2 (.inr ⟨a.key, a, ha, hname, rfl⟩)
  obtain ⟨e, he, hpayload⟩ := mem_map.1 hmem
  have htouches : e.payload.Touches (.partitionAssignment a.key) := by
    rw [hpayload]
    exact rfl
  obtain ⟨s', hcell, hresult⟩ := read_replayEvents_of_unique (s := follower) he htouches
    (h.pairwise hkeyed fun key hc => by cases hc)
  have hcell : s'.partitionAssignments a.key = follower.partitionAssignments a.key := hcell
  have hresult : (follower.replayEvents es).partitionAssignments a.key =
      (s'.apply e).partitionAssignments a.key := hresult
  rw [hresult, ← hcell, MetadataState.apply, hpayload]
  exact Function.update_self _ _ _

theorem Broadcast.assignments_of_not_leader (ha : leader.partitionAssignments key = none) :
    (follower.replayEvents es).partitionAssignments key = follower.partitionAssignments key := by
  refine read_replayEvents_of_not_touches (c := .partitionAssignment key) fun e he htouches => ?_
  rcases h.mem_iff.1 (mem_map_of_mem he) with
    ⟨name, -, l, -, hpayload⟩ | ⟨key', a, ha', -, hpayload⟩
  · rw [hpayload] at htouches
    exact htouches
  rw [hpayload] at htouches
  have hkey : key = a.key := htouches
  rw [hkey, hkeyed key' a ha', ha'] at ha
  cases ha

end

/-! ## The snapshot -/

theorem topics_foldl_deleteTopic (s : MetadataState) (names : List String) :
    (names.foldl .deleteTopic s).topics name = if name ∈ names then none else s.topics name := by
  induction names generalizing s with
  | nil => rfl
  | cons first names ih =>
    rw [foldl_cons, ih]
    by_cases hfirst : name = first <;> simp [deleteTopic, hfirst]

theorem partitionAssignments_foldl_deleteTopic (s : MetadataState) (names : List String) :
    (names.foldl .deleteTopic s).partitionAssignments key =
      if key.1 ∈ names then none else s.partitionAssignments key := by
  induction names generalizing s with
  | nil => rfl
  | cons first names ih =>
    rw [foldl_cons, ih]
    by_cases hfirst : key.1 = first <;> simp [deleteTopic, hfirst]

/-- A complete pass: the broadcast is applied, and the snapshot is published and not refused. -/
structure CompletePass (leader : MetadataState) (f : CatalogFollower) (config : PruneConfig)
    (es : List MetadataEvent) (localTopics authoritative : List String) (snapshotAt : Int) : Prop where
  broadcast : Broadcast leader es
  published : ∃ topics lastSnapshotSize, Lists topics leader.topics ∧
    broadcastCatalogSnapshot topics lastSnapshotSize = some authoritative
  listed : Lists localTopics (f.state.replayEvents es).topics
  enabled : config.enabled = true
  newer : ∀ prev ∈ f.lastCatalogSnapshot, prev < snapshotAt
  notRefused : config.refuses (CatalogFollower.stale localTopics authoritative).length
    (localTopics.filter (¬ Internal ·)).length = false

variable {f : CatalogFollower}

section
variable (h : CompletePass leader f config es localTopics authoritative snapshotAt)
include h

theorem CompletePass.mem_authoritative :
    authoritative ≠ [] ∧
      ∀ name, name ∈ authoritative ↔ ¬ Internal name ∧ (leader.topics name).isSome := by
  obtain ⟨topics, lastSnapshotSize, htopics, hpublished⟩ := h.published
  simp only [broadcastCatalogSnapshot, ite_none_left_eq_some, ite_none_right_eq_some,
    some.injEq] at hpublished
  obtain ⟨hne, -, rfl⟩ := hpublished
  refine ⟨hne, fun name => ?_⟩
  rw [mem_filter, htopics.mem_iff, decide_eq_true_iff, and_comm]

theorem CompletePass.state_eq :
    (f.applyPass config es localTopics authoritative snapshotAt).state =
      (CatalogFollower.stale localTopics authoritative).foldl .deleteTopic
        (f.state.replayEvents es) := by
  have hnewer : ¬ ∃ prev ∈ f.lastCatalogSnapshot, snapshotAt ≤ prev := by
    rintro ⟨prev, hprev, hle⟩
    exact absurd (h.newer prev hprev) (not_lt.2 hle)
  rw [CatalogFollower.applyPass, CatalogFollower.reconcileCatalog, if_neg (by simp [h.enabled]),
    if_neg h.mem_authoritative.1, if_neg hnewer]
  dsimp only
  split
  case isTrue hnil =>
    rw [hnil]
    rfl
  case isFalse => rw [if_neg (ne_true_of_eq_false h.notRefused)]

theorem CompletePass.mem_stale_iff (hname : ¬ Internal name) :
    name ∈ CatalogFollower.stale localTopics authoritative ↔ StaleTopic leader f.state name := by
  rw [CatalogFollower.stale, mem_filter, decide_eq_true_iff, h.listed.mem_iff,
    h.mem_authoritative.2, StaleTopic]
  cases hl : leader.topics name with
  | some l => simp [hname]
  | none => simp [hname, h.broadcast.topics_of_not_leader hl]

theorem CompletePass.topics_eq (hkeyed : WellKeyed leader) (hname : ¬ Internal name) :
    ((f.applyPass config es localTopics authoritative snapshotAt).state.topics name).map (·.config) =
      (leader.topics name).map fun l => (f.state.topics name).elim l.config fun existing =>
        (existing.createAgain l.config l.autoCreated 0).config := by
  rw [h.state_eq, topics_foldl_deleteTopic]
  cases hl : leader.topics name with
  | some l =>
    have hstale : ¬ StaleTopic leader f.state name := fun hstale => by rw [hstale.2] at hl; cases hl
    obtain ⟨e, he⟩ : ∃ e, (f.state.replayEvents es).topics name =
        some (createdTopic (f.state.topics name) e name l.config l.autoCreated) :=
      h.broadcast.topics_of_leader hkeyed hname hl
    rw [if_neg (mt (h.mem_stale_iff hname).1 hstale), he]
    exact congrArg some (config_createdTopic _ e name l.config l.autoCreated)
  | none =>
    by_cases hstale : StaleTopic leader f.state name
    · rw [if_pos ((h.mem_stale_iff hname).2 hstale)]
      rfl
    have hnone : f.state.topics name = none := by
      rw [← not_isSome_iff_eq_none]
      exact fun hsome => hstale ⟨hsome, hl⟩
    rw [if_neg (mt (h.mem_stale_iff hname).1 hstale), h.broadcast.topics_of_not_leader hl, hnone]
    rfl

theorem CompletePass.assignments_eq_of_stale (hname : ¬ Internal key.1)
    (hstale : StaleTopic leader f.state key.1) :
    (f.applyPass config es localTopics authoritative snapshotAt).state.partitionAssignments key =
      none := by
  rw [h.state_eq, partitionAssignments_foldl_deleteTopic, if_pos ((h.mem_stale_iff hname).2 hstale)]

theorem CompletePass.assignments_eq (hkeyed : WellKeyed leader) (hname : ¬ Internal key.1) (hstale : ¬ StaleTopic leader f.state key.1) :
    (f.applyPass config es localTopics authoritative snapshotAt).state.partitionAssignments key =
      (leader.partitionAssignments key).elim (f.state.partitionAssignments key) fun a =>
        some (supersedes (f.state.partitionAssignments key) a) := by
  rw [h.state_eq, partitionAssignments_foldl_deleteTopic, if_neg (mt (h.mem_stale_iff hname).1 hstale)]
  cases ha : leader.partitionAssignments key with
  | some a => exact h.broadcast.assignments_of_leader hkeyed hname ha
  | none => exact h.broadcast.assignments_of_not_leader hkeyed ha

end

theorem supersedes_eq_iff :
    supersedes existing a = a ↔ ∀ b ∈ existing, b.leaderEpoch ≤ a.leaderEpoch := by
  rcases supersedes_cases existing a with ⟨b, hb, hlt, heq⟩ | ⟨hle, heq⟩
  · refine iff_of_false (fun h => ?_) fun h => absurd (h b hb) (not_le.2 hlt)
    rw [← heq, h] at hlt
    exact lt_irrefl _ hlt
  · exact iff_of_true heq hle

end

/-- A complete pass heals the follower exactly if its state is one that the rules for merging and
epochs can heal. -/
theorem healed_iff {nodeId : UInt64} {events : List MetadataEvent} {leader : MetadataState}
    {f : CatalogFollower} {config : PruneConfig} {es : List MetadataEvent}
    {localTopics authoritative : List String} {snapshotAt : Int}
    (hleader : leader = (new nodeId).replayEvents events)
    (h : CompletePass leader f config es localTopics authoritative snapshotAt) :
    Healed leader (f.applyPass config es localTopics authoritative snapshotAt).state ↔
      Healable leader f.state := by
  have hkeyed : WellKeyed leader := hleader ▸ wellKeyed_replayEvents nodeId events
  constructor
  · intro hhealed
    refine ⟨fun name hname l hl existing hexisting => ?_, fun key hname hstale a ha => ?_,
      fun key hname hstale hnone => ?_, fun key hname hstale => ?_⟩
    · have heq := hhealed.topics name hname
      rw [h.topics_eq hkeyed hname, hl, hexisting] at heq
      exact config_createAgain_eq_iff.1 (some.inj heq)
    · have heq := hhealed.assignments key hname
      rw [h.assignments_eq hkeyed hname hstale, ha] at heq
      exact supersedes_eq_iff.1 (some.inj heq)
    · have heq := hhealed.assignments key hname
      rw [h.assignments_eq hkeyed hname hstale, hnone] at heq
      exact heq
    · rw [← hhealed.assignments key hname]
      exact h.assignments_eq_of_stale hname hstale
  · intro hhealable
    refine ⟨fun name hname => ?_, fun key hname => ?_⟩
    · rw [h.topics_eq hkeyed hname]
      cases hl : leader.topics name with
      | none => rfl
      | some l =>
      cases hexisting : f.state.topics name with
      | none => rfl
      | some existing =>
        have htopic := hhealable.topics name hname l hl existing hexisting
        exact congrArg some (config_createAgain_eq_iff.2 htopic)
    · by_cases hstale : StaleTopic leader f.state key.1
      · rw [h.assignments_eq_of_stale hname hstale, hhealable.stale key hname hstale]
      rw [h.assignments_eq hkeyed hname hstale]
      cases ha : leader.partitionAssignments key with
      | none => exact hhealable.unassigned key hname hstale ha
      | some a => exact congrArg some (supersedes_eq_iff.2 (hhealable.assigned key hname hstale a ha))

section

theorem lists_singleton {κ α : Type*} {key : κ} {map : κ → Option α}
    (h : ∀ k, (map k).isSome ↔ k = key) : Lists [key] map :=
  ⟨nodup_singleton key, fun k => mem_singleton.trans (h k).symm⟩

def retainedFor (retentionMs : Int) : TopicConfig := ⟨1, 1, some retentionMs, 1073741824, .empty⟩

def created (name : String) : MetadataEvent := ⟨1, 0, .topicCreated name (retainedFor 1000) false⟩

def assigned : MetadataEvent := ⟨2, 0, .partitionAssigned ⟨"t", 0, 1, true, [1], 1, 0, [1]⟩⟩

/-- No fraction of the catalog is too large to be deleted. -/
def pruneAll : PruneConfig := ⟨true, fun wouldPrune localTotal => localTotal < wouldPrune⟩

/-- Topic `u` is deleted and topic `t` created; the follower has seen the creation of `u` only. -/
def leaderEvents : List MetadataEvent := [created "u", created "t", ⟨2, 0, .topicDeleted "u"⟩, assigned]

def laggingFollower : CatalogFollower := ⟨(new 2).replayEvents [created "u"], none⟩

theorem lists_leaderTopics : Lists ["t"] ((new 1).replayEvents leaderEvents).topics := by
  refine lists_singleton fun k => ?_
  by_cases hu : k = "u" <;> by_cases ht : k = "t" <;>
    simp [hu, ht, leaderEvents, created, assigned, replayEvents, MetadataState.apply,
      createTopic, deleteTopic, new]

theorem lists_leaderAssignments :
    Lists [("t", 0)] ((new 1).replayEvents leaderEvents).partitionAssignments := by
  refine lists_singleton fun k => ?_
  by_cases hk : k = ("t", 0) <;>
    simp [hk, leaderEvents, created, assigned, replayEvents, MetadataState.apply,
      createTopic, deleteTopic, new, PartitionAssignment.key]

theorem lists_laggingTopics :
    Lists ["u", "t"] (laggingFollower.state.replayEvents [created "t", assigned]).topics := by
  refine ⟨by decide, fun k => ?_⟩
  by_cases hu : k = "u" <;> by_cases ht : k = "t" <;>
    simp [hu, ht, laggingFollower, created, assigned, replayEvents, MetadataState.apply,
      createTopic, new]

theorem completePass_lagging :
    CompletePass ((new 1).replayEvents leaderEvents) laggingFollower pruneAll
      [created "t", assigned] ["u", "t"] ["t"] 1 where
  broadcast := ⟨["t"], [("t", 0)], lists_leaderTopics, lists_leaderAssignments, rfl⟩
  published := ⟨["t"], some 1, lists_leaderTopics, rfl⟩
  listed := lists_laggingTopics
  enabled := rfl
  newer _ hprev := by cases hprev
  notRefused := by decide

theorem healable_lagging : Healable ((new 1).replayEvents leaderEvents) laggingFollower.state := by
  have hassigned (key : String × Nat) : laggingFollower.state.partitionAssignments key = none := rfl
  refine ⟨fun name _ l hl existing hexisting => ?_, fun key _ _ a _ b hb => ?_,
    fun key _ _ _ => hassigned key,
    fun key _ hstale => ?_⟩
  · have hname : name = "u" := by
      by_contra hne
      have hnone : laggingFollower.state.topics name = none := Function.update_of_ne hne _ _
      rw [hnone] at hexisting
      cases hexisting
    subst hname
    cases hl
  · cases hb
  · rw [← not_isSome_iff_eq_none, ← lists_leaderAssignments.mem_iff, mem_singleton]
    rintro rfl
    cases hstale.2

/-- The deletion of `u`, the creation of `t` and its assignment are all made up for. -/
theorem healed_iff_lagging :
    Healed ((new 1).replayEvents leaderEvents)
      (laggingFollower.applyPass pruneAll [created "t", assigned] ["u", "t"] ["t"] 1).state :=
  (healed_iff rfl completePass_lagging).2 healable_lagging

/-- A follower that has missed an update of the retention time. -/
def updatedEvents : List MetadataEvent := [created "t", ⟨2, 0, .topicUpdated "t" (retainedFor 2000)⟩]

def outdatedFollower : CatalogFollower := ⟨(new 2).replayEvents [created "t"], none⟩

def rebroadcast : MetadataEvent := ⟨3, 0, .topicCreated "t" (retainedFor 2000) false⟩

theorem lists_updatedTopics : Lists ["t"] ((new 1).replayEvents updatedEvents).topics := by
  refine lists_singleton fun k => ?_
  by_cases hk : k = "t" <;>
    simp [hk, updatedEvents, created, replayEvents, MetadataState.apply, createTopic, new]

theorem completePass_outdated :
    CompletePass ((new 1).replayEvents updatedEvents) outdatedFollower pruneAll
      [rebroadcast] ["t"] ["t"] 1 where
  broadcast := by
    refine ⟨["t"], [], lists_updatedTopics,
      ⟨.nil, fun k => iff_of_false not_mem_nil fun hk => ?_⟩, rfl⟩
    cases hk
  published := ⟨["t"], some 1, lists_updatedTopics, rfl⟩
  listed := by
    refine lists_singleton fun k => ?_
    by_cases hk : k = "t" <;>
      simp [hk, outdatedFollower, rebroadcast, created, replayEvents, MetadataState.apply,
        createTopic, new]
  enabled := rfl
  newer _ hprev := by cases hprev
  notRefused := by decide

end

def MetadataEventPayload.OfCatalog : MetadataEventPayload → Prop
  | .topicCreated .. | .topicUpdated .. | .topicDeleted _ | .partitionAssigned _ => True
  | _ => False

/-- A missed update of a topic is not made up for: the topic that is there is kept. -/
theorem update_not_healed :
    ¬ ∀ (nodeId nodeId' : UInt64) (events seen : List MetadataEvent) (f : CatalogFollower)
        (config : PruneConfig) (es : List MetadataEvent) (localTopics authoritative : List String)
        (snapshotAt : Int), (∀ e ∈ events, e.payload.OfCatalog) → seen.Sublist events →
        f.state = (new nodeId').replayEvents seen →
        CompletePass ((new nodeId).replayEvents events) f config es localTopics
          authoritative snapshotAt →
        Healed ((new nodeId).replayEvents events)
          (f.applyPass config es localTopics authoritative snapshotAt).state := by
  intro h
  have hhealed := h 1 2 updatedEvents [created "t"] outdatedFollower pruneAll [rebroadcast] ["t"] ["t"] 1
    (by simp [updatedEvents, created, MetadataEventPayload.OfCatalog]) (by decide) rfl
    completePass_outdated
  have hconfig := hhealed.topics "t" (by decide)
  revert hconfig
  decide

end ChronikStream.Metadata
