import ChronikStream.Lib.OrderedMap
import ChronikStream.Lib.Replay
import ChronikStream.Metadata.Transaction
import Mathlib.Data.String.Basic

/-!
# The metadata store

The state of `WalMetadataStore` is built from events by `apply_event`. `Touches` says which cells an
event reads and writes, and `localTo_apply` that it reaches no others, so events with disjoint
footprints commute. ACLs, credentials and index segments are left out.
-/

namespace ChronikStream.Metadata

open Function

/-! ## The state -/

structure TopicConfig where
  partitionCount : Nat
  replicationFactor : Nat
  retentionMs : Option Int
  segmentBytes : Int
  config : OrderedMap String String
  deriving DecidableEq

structure TopicMetadata where
  id : Nat
  name : String
  config : TopicConfig
  createdAt : Int
  updatedAt : Int
  autoCreated : Bool
  deriving DecidableEq

inductive BrokerStatus where
  | online
  | offline
  | maintenance
  deriving DecidableEq

structure BrokerMetadata where
  brokerId : Int
  host : String
  port : Int
  rack : Option String
  status : BrokerStatus
  createdAt : Int
  updatedAt : Int
  deriving DecidableEq

/-- A consumer group as far as it is restored from the metadata. -/
structure ConsumerGroupMetadata where
  groupId : String
  state : String
  generationId : Int
  leaderId : Option String
  deriving DecidableEq

structure ConsumerOffset where
  groupId : String
  topic : String
  partition : Nat
  offset : Int
  metadata : Option String
  commitTimestamp : Int
  deriving DecidableEq

structure PartitionAssignment where
  topic : String
  partition : Nat
  brokerId : Int
  isLeader : Bool
  replicas : List Nat
  leaderId : Nat
  leaderEpoch : Int
  isr : List Nat
  deriving DecidableEq

def PartitionAssignment.key (a : PartitionAssignment) : String × Nat := (a.topic, a.partition)

/-- The key of a committed offset: group, topic and partition. -/
def ConsumerOffset.key (o : ConsumerOffset) : String × String × Nat := (o.groupId, o.topic, o.partition)

structure MetadataState where
  topics : String → Option TopicMetadata
  brokers : Int → Option BrokerMetadata
  consumerGroups : String → Option ConsumerGroupMetadata
  consumerOffsets : String × String × Nat → Option ConsumerOffset
  partitionAssignments : String × Nat → Option PartitionAssignment
  /-- The high watermark and the log start offset. -/
  partitionOffsets : String × Nat → Option (Int × Int)
  coordinator : TransactionCoordinator

/-- The payloads, with one constructor for the events of a transaction. -/
inductive MetadataEventPayload where
  | topicCreated (name : String) (config : TopicConfig) (autoCreated : Bool)
  | topicUpdated (name : String) (config : TopicConfig)
  | topicDeleted (name : String)
  | catalogSnapshot (topics : List String)
  | brokerRegistered (metadata : BrokerMetadata)
  | brokerStatusChanged (brokerId : Int) (status : BrokerStatus)
  | brokerRemoved (brokerId : Int)
  | partitionAssigned (assignment : PartitionAssignment)
  | consumerGroupCreated (metadata : ConsumerGroupMetadata)
  | consumerGroupUpdated (metadata : ConsumerGroupMetadata)
  | consumerGroupDeleted (groupId : String)
  | offsetCommitted (offset : ConsumerOffset)
  | consumerOffsetDeleted (groupId topic : String) (partition : Nat)
  | highWatermarkUpdated (topic : String) (partition newWatermark : Int)
  | logStartOffsetUpdated (topic : String) (partition newLogStartOffset : Int)
  | transaction (transactionalId : String) (event : TransactionEvent)
  deriving DecidableEq

/-- The timestamp is in nanoseconds. -/
structure MetadataEvent where
  eventId : Nat
  timestamp : Int
  payload : MetadataEventPayload
  deriving DecidableEq

def MetadataEvent.timestampMillis (e : MetadataEvent) : Int := e.timestamp / 1000000

/-! ## Applying an event -/

/-- Only the keys that the topic does not have are taken over. -/
def TopicMetadata.merge (existing : TopicMetadata) (config : TopicConfig) (timestamp : Int) :
    TopicMetadata :=
  let merged := config.config.entries.any fun x => (existing.config.config.get? x.1).isNone
  { existing with
    config := { existing.config with
      config := existing.config.config.insertMissing config.config.entries }
    updatedAt := if merged then timestamp else existing.updatedAt }

/-- A `TopicCreated` for a topic that exists: explicit replaces auto-created, else more partitions
replace fewer. -/
def TopicMetadata.createAgain (existing : TopicMetadata) (config : TopicConfig) (autoCreated : Bool)
    (timestamp : Int) : TopicMetadata :=
  if autoCreated ∧ ¬ existing.autoCreated then existing.merge config timestamp
  else if ¬ autoCreated ∧ existing.autoCreated then
    { existing with config := config, autoCreated := false, updatedAt := timestamp }
  else if existing.config.partitionCount < config.partitionCount then
    { existing with config := config, updatedAt := timestamp }
  else existing.merge config timestamp

/-- The partitions whose offsets a `TopicCreated` on an existing topic initialises, if they have none. -/
def TopicMetadata.newPartitions (existing : TopicMetadata) (config : TopicConfig) (autoCreated : Bool)
    (partition : Nat) : Bool :=
  if autoCreated ∧ ¬ existing.autoCreated then false
  else if ¬ autoCreated ∧ existing.autoCreated then partition < config.partitionCount
  else existing.config.partitionCount ≤ partition ∧ partition < config.partitionCount

def asU32 (x : Int) : Nat := (x % 2 ^ 32).toNat

namespace MetadataState

def new (nodeId : UInt64) : MetadataState where
  topics _ := none
  brokers _ := none
  consumerGroups _ := none
  consumerOffsets _ := none
  partitionAssignments _ := none
  partitionOffsets _ := none
  coordinator := .new nodeId

def createdTopic (existing : Option TopicMetadata) (e : MetadataEvent) (name : String)
    (config : TopicConfig) (autoCreated : Bool) : TopicMetadata :=
  match existing with
  | some existing => existing.createAgain config autoCreated e.timestamp
  | none => ⟨e.eventId, name, config, e.timestamp, e.timestamp, autoCreated⟩

/-- The offsets of a partition of the topic after a `TopicCreated`: a new topic starts from nothing. -/
def createdOffsets (existing : Option TopicMetadata) (config : TopicConfig) (autoCreated : Bool)
    (partition : Nat) (offsets : Option (Int × Int)) : Option (Int × Int) :=
  match existing with
  | some existing =>
    if existing.newPartitions config autoCreated partition then some (offsets.getD (0, 0)) else offsets
  | none => if partition < config.partitionCount then some (0, 0) else offsets

def createTopic (s : MetadataState) (e : MetadataEvent) (name : String) (config : TopicConfig)
    (autoCreated : Bool) : MetadataState :=
  { s with
    topics := update s.topics name
      (some (createdTopic (s.topics name) e name config autoCreated))
    partitionOffsets := fun key =>
      if key.1 = name then
        createdOffsets (s.topics name) config autoCreated key.2 (s.partitionOffsets key)
      else s.partitionOffsets key }

/-- The topic goes with its assignments, offsets and committed offsets. -/
def deleteTopic (s : MetadataState) (name : String) : MetadataState :=
  { s with
    topics := update s.topics name none
    partitionAssignments := fun key => if key.1 = name then none else s.partitionAssignments key
    partitionOffsets := fun key => if key.1 = name then none else s.partitionOffsets key
    consumerOffsets := fun key => if key.2.1 = name then none else s.consumerOffsets key }

/-- An assignment with an older leader epoch than the present one is ignored. -/
def supersedes (existing : Option PartitionAssignment) (assignment : PartitionAssignment) :
    PartitionAssignment :=
  match existing with
  | some existing => if assignment.leaderEpoch < existing.leaderEpoch then existing else assignment
  | none => assignment

theorem supersedes_cases (existing : Option PartitionAssignment) (assignment : PartitionAssignment) :
    (∃ b ∈ existing, assignment.leaderEpoch < b.leaderEpoch ∧ supersedes existing assignment = b) ∨
    ((∀ b ∈ existing, b.leaderEpoch ≤ assignment.leaderEpoch) ∧
      supersedes existing assignment = assignment) := by
  cases existing with
  | none => exact .inr ⟨by simp, rfl⟩
  | some existing =>
  by_cases hlt : assignment.leaderEpoch < existing.leaderEpoch
  · exact .inl ⟨existing, rfl, hlt, if_pos hlt⟩
  · exact .inr ⟨by simpa using hlt, if_neg hlt⟩

/-- The high watermark is the last one written. -/
def setHighWatermark (offsets : Option (Int × Int)) (newWatermark : Int) : Int × Int :=
  match offsets with
  | some (_, lso) => (newWatermark, lso)
  | none => (newWatermark, 0)

/-- The log start offset only advances. -/
def raiseLogStart (offsets : Option (Int × Int)) (newLogStartOffset : Int) : Int × Int :=
  match offsets with
  | some (hwm, lso) => (hwm, if lso < newLogStartOffset then newLogStartOffset else lso)
  | none => (0, newLogStartOffset)

def apply (s : MetadataState) (e : MetadataEvent) : MetadataState :=
  match e.payload with
  | .topicCreated name config autoCreated => s.createTopic e name config autoCreated
  | .topicUpdated name config =>
    { s with
      topics := update s.topics name ((s.topics name).map fun metadata =>
        { metadata with config := config, updatedAt := e.timestamp }) }
  | .topicDeleted name => s.deleteTopic name
  -- a snapshot is handled by `apply_replicated_event`
  | .catalogSnapshot _ => s
  | .brokerRegistered metadata =>
    { s with brokers := update s.brokers metadata.brokerId (some metadata) }
  | .brokerStatusChanged brokerId status =>
    { s with
      brokers := update s.brokers brokerId ((s.brokers brokerId).map fun broker =>
        { broker with status := status, updatedAt := e.timestamp }) }
  | .brokerRemoved brokerId => { s with brokers := update s.brokers brokerId none }
  | .partitionAssigned assignment =>
    { s with
      partitionAssignments := update s.partitionAssignments assignment.key
        (some (supersedes (s.partitionAssignments assignment.key) assignment)) }
  | .consumerGroupCreated metadata | .consumerGroupUpdated metadata =>
    { s with consumerGroups := update s.consumerGroups metadata.groupId (some metadata) }
  | .consumerGroupDeleted groupId =>
    { s with
      consumerGroups := update s.consumerGroups groupId none
      consumerOffsets := fun key => if key.1 = groupId then none else s.consumerOffsets key }
  | .offsetCommitted offset =>
    { s with consumerOffsets := update s.consumerOffsets offset.key (some offset) }
  | .consumerOffsetDeleted groupId topic partition =>
    { s with consumerOffsets := update s.consumerOffsets (groupId, topic, partition) none }
  | .highWatermarkUpdated topic partition newWatermark =>
    let key := (topic, asU32 partition)
    { s with
      partitionOffsets := update s.partitionOffsets key
        (some (setHighWatermark (s.partitionOffsets key) newWatermark)) }
  | .logStartOffsetUpdated topic partition newLogStartOffset =>
    let key := (topic, asU32 partition)
    { s with
      partitionOffsets := update s.partitionOffsets key
        (some (raiseLogStart (s.partitionOffsets key) newLogStartOffset)) }
  | .transaction transactionalId event =>
    { s with coordinator := s.coordinator.apply transactionalId e.timestampMillis event }

def replayEvents (s : MetadataState) (events : List MetadataEvent) : MetadataState :=
  events.foldl apply s

/-- The epoch is bumped exactly if the leader changes; an empty in-sync set is taken from before. -/
def assignPartition (previous : Option PartitionAssignment) (assignment : PartitionAssignment) :
    PartitionAssignment :=
  match previous with
  | some previous =>
    { assignment with
      isr := if assignment.isr = [] then previous.isr else assignment.isr
      leaderEpoch :=
        if previous.leaderId = assignment.leaderId then previous.leaderEpoch
        -- `saturating_add` of an `i32`
        else min (previous.leaderEpoch + 1) (2 ^ 31 - 1) }
  | none => { assignment with leaderEpoch := 0 }

/-- The end of `update_partition_offset`: the log start offset is raised in memory, without an event. -/
def updateLogStart (s : MetadataState) (key : String × Nat) (highWatermark logStartOffset : Int) :
    MetadataState :=
  { s with
    partitionOffsets := update s.partitionOffsets key
      (match s.partitionOffsets key with
      | some (hwm, lso) => some (hwm, if lso < logStartOffset then logStartOffset else lso)
      | none => some (highWatermark, logStartOffset)) }

end MetadataState

/-! ## Footprints -/

/-- A place in the state. The counter for producer ids is not one: all events raise it to a maximum. -/
inductive Cell where
  | topic (name : String)
  | broker (brokerId : Int)
  | consumerGroup (groupId : String)
  | consumerOffset (key : String × String × Nat)
  | partitionAssignment (key : String × Nat)
  | partitionOffset (key : String × Nat)
  | transaction (transactionalId : String)

def Cell.Value : Cell → Type
  | .topic _ => Option TopicMetadata
  | .broker _ => Option BrokerMetadata
  | .consumerGroup _ => Option ConsumerGroupMetadata
  | .consumerOffset _ => Option ConsumerOffset
  | .partitionAssignment _ => Option PartitionAssignment
  | .partitionOffset _ => Option (Int × Int)
  | .transaction _ => Option TransactionMetadata

def Cell.read : (c : Cell) → MetadataState → c.Value
  | .topic name, s => s.topics name
  | .broker brokerId, s => s.brokers brokerId
  | .consumerGroup groupId, s => s.consumerGroups groupId
  | .consumerOffset key, s => s.consumerOffsets key
  | .partitionAssignment key, s => s.partitionAssignments key
  | .partitionOffset key, s => s.partitionOffsets key
  | .transaction transactionalId, s => s.coordinator.transactions transactionalId

def MetadataEventPayload.Touches : MetadataEventPayload → Cell → Prop
  | .topicCreated name .., .topic name' => name' = name
  | .topicCreated name .., .partitionOffset key => key.1 = name
  | .topicUpdated name _, .topic name' => name' = name
  | .topicDeleted name, .topic name' => name' = name
  | .topicDeleted name, .partitionAssignment key => key.1 = name
  | .topicDeleted name, .partitionOffset key => key.1 = name
  | .topicDeleted name, .consumerOffset key => key.2.1 = name
  | .brokerRegistered metadata, .broker brokerId => brokerId = metadata.brokerId
  | .brokerStatusChanged brokerId _, .broker brokerId' => brokerId' = brokerId
  | .brokerRemoved brokerId, .broker brokerId' => brokerId' = brokerId
  | .partitionAssigned assignment, .partitionAssignment key => key = assignment.key
  | .consumerGroupCreated metadata, .consumerGroup groupId => groupId = metadata.groupId
  | .consumerGroupUpdated metadata, .consumerGroup groupId => groupId = metadata.groupId
  | .consumerGroupDeleted groupId, .consumerGroup groupId' => groupId' = groupId
  | .consumerGroupDeleted groupId, .consumerOffset key => key.1 = groupId
  | .offsetCommitted offset, .consumerOffset key => key = offset.key
  | .consumerOffsetDeleted groupId topic partition, .consumerOffset key =>
    key = (groupId, topic, partition)
  | .highWatermarkUpdated topic partition _, .partitionOffset key => key = (topic, asU32 partition)
  | .logStartOffsetUpdated topic partition _, .partitionOffset key => key = (topic, asU32 partition)
  | .transaction transactionalId _, .transaction transactionalId' => transactionalId' = transactionalId
  | _, _ => False

/-- No cell is touched by both events. -/
def Independent (e e' : MetadataEvent) : Prop := ∀ c, ¬ (e.payload.Touches c ∧ e'.payload.Touches c)

variable {s s' : MetadataState} {e : MetadataEvent}

namespace MetadataState

/-- Outside the footprint nothing changes. -/
theorem read_apply_of_not_touches {c : Cell} (h : ¬ e.payload.Touches c) :
    c.read (s.apply e) = c.read s := by
  obtain ⟨eventId, timestamp, payload⟩ := e
  cases payload <;> cases c <;> first
    | rfl
    | exact update_of_ne h _ _
    | exact if_neg h

/-- What is written to a cell of the footprint depends on the footprint only; but for the offsets of a
created topic, it depends on the cell alone. -/
theorem read_apply_congr {c : Cell} (h : ∀ c, e.payload.Touches c → c.read s = c.read s')
    (ht : e.payload.Touches c) : c.read (s.apply e) = c.read (s'.apply e) := by
  have hcell := h c ht
  obtain ⟨eventId, timestamp, payload⟩ := e
  cases payload
  case topicCreated name config autoCreated =>
    have htopic : s.topics name = s'.topics name := h (.topic name) rfl
    cases c <;> first | exact ht.elim | dsimp only [Cell.read, apply, createTopic] at hcell ⊢
    case topic =>
      cases ht
      rw [update_self, update_self, htopic]
    case partitionOffset => rw [htopic, hcell]
  all_goals
    cases c <;> first
      | exact ht.elim
      | exact (if_pos ht).trans (if_pos ht).symm
      | (cases ht
         dsimp only [Cell.read, apply, deleteTopic] at hcell ⊢
         simp only [update_self, TransactionCoordinator.transactions_apply_self, hcell]
         rfl)

/-- The producer id that the event raises the counter past. -/
theorem nextProducerId_apply (e : MetadataEvent) :
    ∃ observed : Option Int, ∀ s : MetadataState, (s.apply e).coordinator.nextProducerId =
      observed.elim s.coordinator.nextProducerId (max s.coordinator.nextProducerId) := by
  obtain ⟨eventId, timestamp, payload⟩ := e
  cases payload with
  | transaction tid event => exact ⟨some _, fun _ => rfl⟩
  | _ => exact ⟨none, fun _ => rfl⟩

theorem ext_read (h : ∀ c : Cell, c.read s = c.read s')
    (hnext : s.coordinator.nextProducerId = s'.coordinator.nextProducerId) : s = s' := by
  obtain ⟨topics, brokers, groups, offsets, assignments, partitionOffsets, transactions, next⟩ := s
  obtain ⟨topics', brokers', groups', offsets', assignments', partitionOffsets', transactions',
    next'⟩ := s'
  obtain rfl : topics = topics' := funext fun name => h (.topic name)
  obtain rfl : brokers = brokers' := funext fun brokerId => h (.broker brokerId)
  obtain rfl : groups = groups' := funext fun groupId => h (.consumerGroup groupId)
  obtain rfl : offsets = offsets' := funext fun key => h (.consumerOffset key)
  obtain rfl : assignments = assignments' := funext fun key => h (.partitionAssignment key)
  obtain rfl : partitionOffsets = partitionOffsets' := funext fun key => h (.partitionOffset key)
  obtain rfl : transactions = transactions' := funext fun tid => h (.transaction tid)
  obtain rfl : next = next' := hnext
  rfl

end MetadataState

theorem localTo_apply (e : MetadataEvent) :
    Replay.LocalTo Cell.read e.payload.Touches fun s => s.apply e where
  frame _ _ hc := MetadataState.read_apply_of_not_touches hc
  depends _ _ hagree _ hc := MetadataState.read_apply_congr hagree hc

/-- Events that touch no common cell commute: the counter is a maximum in either order. -/
theorem commute_of_independent (h : Independent e e') : Replay.Commute MetadataState.apply e e' := by
  intro s
  have hcells := (localTo_apply e).read_comm (localTo_apply e') h s
  refine MetadataState.ext_read (fun c => (hcells c).symm) ?_
  obtain ⟨observed, he⟩ := MetadataState.nextProducerId_apply e
  obtain ⟨observed', he'⟩ := MetadataState.nextProducerId_apply e'
  rw [he', he, he, he']
  cases observed <;> cases observed' <;> simp [max_right_comm]

end ChronikStream.Metadata
