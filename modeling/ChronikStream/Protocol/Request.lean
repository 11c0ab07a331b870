import ChronikStream.Produce.RecordBatch

/-!
# Requests on the wire

The header of a request and the bodies of DeleteRecords, Metadata and the SCRAM credential APIs, as `Decoder`
reads them. A Metadata request is read twice, by the router and by the protocol handler, and the two readers skip
the tagged fields of a topic in different ways.
-/

namespace ChronikStream.Protocol

open Bytes ByteReader

/-! ## Primitives -/

def readI8 : ByteReader Int := do return ofBeInt (← exact 1)

def readI16 : ByteReader Int := do return ofBeInt (← exact 2)

def readI32 : ByteReader Int := do return ofBeInt (← exact 4)

def readI64 : ByteReader Int := do return ofBeInt (← exact 8)

def readBool : ByteReader Bool := do return (← exact 1) ≠ [0]

def readUnsignedVarint : ByteReader Nat := varintFrom 32 0

/-- The text behind a length, absent where the length is negative. -/
def readText (length : Int) : ByteReader (Option String) := do
  match ← nullable length with
  | none => return none
  | some bytes => return some (← (String.fromUTF8? ⟨bytes.toArray⟩ : Option String))

def readString : ByteReader (Option String) := do readText (← readI16)

/-- The length is an `i32`, one less than the number read. -/
def readCompactString : ByteReader (Option String) := do
  let length ← readUnsignedVarint
  readText (wrap 4 (wrap 4 length - 1))

def readCompactBytes : ByteReader (Option (List UInt8)) := do
  let length ← readUnsignedVarint
  nullable (wrap 4 (wrap 4 length - 1))

def readName (flexible : Bool) : ByteReader (Option String) :=
  if flexible then readCompactString else readString

/-- The tagged fields at the end of a flexible structure, of sizes that `sizeOk` accepts. -/
def skipTaggedFields (sizeOk : Nat → Bool) : ByteReader Unit := do
  let count ← readUnsignedVarint
  let _ ← times (do
    let _ ← readUnsignedVarint
    let size ← readUnsignedVarint
    guard (sizeOk size = true)
    exact size) count
  return ()

/-! ## Headers -/

inductive ApiKey where
  | produce | fetch | listOffsets | metadata | leaderAndIsr | stopReplica | updateMetadata
  | controlledShutdown | offsetCommit | offsetFetch | findCoordinator | joinGroup | heartbeat | leaveGroup
  | syncGroup | describeGroups | listGroups | saslHandshake | apiVersions | createTopics | deleteTopics
  | deleteRecords | initProducerId | offsetForLeaderEpoch | addPartitionsToTxn | addOffsetsToTxn | endTxn
  | writeTxnMarkers | txnOffsetCommit | describeAcls | createAcls | deleteAcls | describeConfigs
  | alterConfigs | alterReplicaLogDirs | describeLogDirs | saslAuthenticate | createPartitions
  | createDelegationToken | renewDelegationToken | expireDelegationToken | describeDelegationToken
  | deleteGroups | electLeaders | incrementalAlterConfigs | alterPartitionReassignments
  | listPartitionReassignments | offsetDelete | describeClientQuotas | alterClientQuotas
  | describeUserScramCredentials | alterUserScramCredentials | alterPartition | updateFeatures | envelope
  | describeCluster | describeProducers | describeTransactions | listTransactions | allocateProducerIds
  deriving DecidableEq

namespace ApiKey

def toI16 : ApiKey → Int
  | .produce => 0 | .fetch => 1 | .listOffsets => 2 | .metadata => 3 | .leaderAndIsr => 4
  | .stopReplica => 5 | .updateMetadata => 6 | .controlledShutdown => 7 | .offsetCommit => 8
  | .offsetFetch => 9 | .findCoordinator => 10 | .joinGroup => 11 | .heartbeat => 12 | .leaveGroup => 13
  | .syncGroup => 14 | .describeGroups => 15 | .listGroups => 16 | .saslHandshake => 17
  | .apiVersions => 18 | .createTopics => 19 | .deleteTopics => 20 | .deleteRecords => 21
  | .initProducerId => 22 | .offsetForLeaderEpoch => 23 | .addPartitionsToTxn => 24
  | .addOffsetsToTxn => 25 | .endTxn => 26 | .writeTxnMarkers => 27 | .txnOffsetCommit => 28
  | .describeAcls => 29 | .createAcls => 30 | .deleteAcls => 31 | .describeConfigs => 32
  | .alterConfigs => 33 | .alterReplicaLogDirs => 34 | .describeLogDirs => 35 | .saslAuthenticate => 36
  | .createPartitions => 37 | .createDelegationToken => 38 | .renewDelegationToken => 39
  | .expireDelegationToken => 40 | .describeDelegationToken => 41 | .deleteGroups => 42
  | .electLeaders => 43 | .incrementalAlterConfigs => 44 | .alterPartitionReassignments => 45
  | .listPartitionReassignments => 46 | .offsetDelete => 47 | .describeClientQuotas => 48
  | .alterClientQuotas => 49 | .describeUserScramCredentials => 50 | .alterUserScramCredentials => 51
  | .alterPartition => 56 | .updateFeatures => 57 | .envelope => 58 | .describeCluster => 60
  | .describeProducers => 61 | .describeTransactions => 65 | .listTransactions => 66
  | .allocateProducerIds => 67

def all : List ApiKey :=
  [.produce, .fetch, .listOffsets, .metadata, .leaderAndIsr, .stopReplica, .updateMetadata,
    .controlledShutdown, .offsetCommit, .offsetFetch, .findCoordinator, .joinGroup, .heartbeat, .leaveGroup,
    .syncGroup, .describeGroups, .listGroups, .saslHandshake, .apiVersions, .createTopics, .deleteTopics,
    .deleteRecords, .initProducerId, .offsetForLeaderEpoch, .addPartitionsToTxn, .addOffsetsToTxn, .endTxn,
    .writeTxnMarkers, .txnOffsetCommit, .describeAcls, .createAcls, .deleteAcls, .describeConfigs,
    .alterConfigs, .alterReplicaLogDirs, .describeLogDirs, .saslAuthenticate, .createPartitions,
    .createDelegationToken, .renewDelegationToken, .expireDelegationToken, .describeDelegationToken,
    .deleteGroups, .electLeaders, .incrementalAlterConfigs, .alterPartitionReassignments,
    .listPartitionReassignments, .offsetDelete, .describeClientQuotas, .alterClientQuotas,
    .describeUserScramCredentials, .alterUserScramCredentials, .alterPartition, .updateFeatures, .envelope,
    .describeCluster, .describeProducers, .describeTransactions, .listTransactions, .allocateProducerIds]

def fromI16 (value : Int) : Option ApiKey := all.find? fun key => key.toI16 = value

/-- The first version that is flexible, if one is. -/
def flexibleFrom : ApiKey → Option Int
  | .produce => some 9 | .fetch => some 12 | .listOffsets => some 6 | .metadata => some 9
  | .offsetCommit => some 8 | .offsetFetch => some 6 | .findCoordinator => some 3 | .joinGroup => some 6
  | .heartbeat => some 4 | .leaveGroup => some 4 | .syncGroup => some 4 | .describeGroups => some 5
  | .listGroups => some 3 | .saslAuthenticate => some 2 | .apiVersions => some 3 | .createTopics => some 5
  | .deleteTopics => some 4 | .describeConfigs => some 4 | .alterConfigs => some 2
  | .incrementalAlterConfigs => some 1 | .describeCluster => some 1 | .deleteRecords => some 2
  | .deleteGroups => some 2 | .createPartitions => some 2 | .electLeaders => some 2
  | .describeLogDirs => some 2 | .alterReplicaLogDirs => some 2 | .offsetForLeaderEpoch => some 4
  | .describeClientQuotas => some 1 | .alterClientQuotas => some 1 | .createDelegationToken => some 2
  | .renewDelegationToken => some 2 | .expireDelegationToken => some 2 | .describeDelegationToken => some 2
  | .initProducerId => some 2 | .addPartitionsToTxn => some 3 | .addOffsetsToTxn => some 3
  | .endTxn => some 3 | .txnOffsetCommit => some 3 | .describeAcls => some 2 | .createAcls => some 2
  | .deleteAcls => some 2
  | _ => none

def isFlexibleVersion (key : ApiKey) (apiVersion : Int) : Bool :=
  match key with
  -- these are flexible at every version, also at negative ones
  | .alterPartitionReassignments | .listPartitionReassignments | .describeUserScramCredentials
  | .alterUserScramCredentials | .describeProducers | .describeTransactions | .listTransactions => true
  | key => key.flexibleFrom.any (· ≤ apiVersion)

end ApiKey

structure RequestHeader where
  apiKey : ApiKey
  apiVersion : Int
  correlationId : Int
  clientId : Option String
  deriving DecidableEq

/-- The client id of a flexible header: a zero byte in front of another one is taken for the length of a plain
string. -/
def readClientId : ByteReader (Option String) := fun bytes =>
  match bytes with
  | 0 :: _ :: _ => readString bytes
  | _ => readCompactString bytes

/-- The header of an ApiVersions request is not flexible at any version. -/
def parseRequestHeader : ByteReader RequestHeader := do
  let apiKeyRaw ← readI16
  let apiVersion ← readI16
  let correlationId ← readI32
  let flexible := (ApiKey.fromI16 apiKeyRaw).any fun key =>
    key ≠ .apiVersions ∧ key.isFlexibleVersion apiVersion
  let clientId ← if flexible then readClientId else readString
  if flexible then skipTaggedFields (· ≤ 1000000)
  let apiKey ← ApiKey.fromI16 apiKeyRaw
  return ⟨apiKey, apiVersion, correlationId, clientId⟩

/-! ## Bodies -/

structure DeleteRecordsTopic where
  name : String
  partitions : List (Int × Int)
  deriving DecidableEq

/-- An array that must not have a negative length. -/
def readArray {α : Type} (read : ByteReader α) : ByteReader (List α) := do
  let count ← readI32
  guard (0 ≤ count)
  times read count.toNat

/-- The topics, and the timeout. -/
def decodeDeleteRecords : ByteReader (List DeleteRecordsTopic × Int) := do
  let topics ← readArray do
    let name ← (← readString)
    let partitions ← readArray do
      let partitionIndex ← readI32
      let offset ← readI64
      return (partitionIndex, offset)
    return (⟨name, partitions⟩ : DeleteRecordsTopic)
  let timeoutMs ← readI32
  return (topics, timeoutMs)

/-- The topics of a Metadata request: `none` stands for all topics. -/
def readMetadataTopics (apiVersion : Int) (skipTags : ByteReader Unit) :
    ByteReader (Option (List String)) := do
  if apiVersion < 1 then return none
  let flexible : Bool := 9 ≤ apiVersion
  let count ← if flexible then do
      let count ← readUnsignedVarint
      pure (if wrap 4 count = 0 then -1 else wrap 4 (wrap 4 count - 1))
    else readI32
  if count < 0 then return none
  let names ← times (do
    if 10 ≤ apiVersion then
      let _ ← exact 16
    let name ← readName flexible
    if flexible then skipTags
    return name) count.toNat
  return some (names.filterMap id)

def readAllowAutoTopicCreation (apiVersion : Int) : ByteReader Bool :=
  if 4 ≤ apiVersion then readBool else return true

structure MetadataRequest where
  topics : Option (List String)
  allowAutoTopicCreation : Bool
  deriving DecidableEq

/-- What the router reads of a Metadata request. -/
def routerMetadata (apiVersion : Int) : ByteReader MetadataRequest := do
  let topics ← readMetadataTopics apiVersion (skipTaggedFields fun _ => true)
  let allowAutoTopicCreation ← readAllowAutoTopicCreation apiVersion
  return ⟨topics, allowAutoTopicCreation⟩

/-- `MetadataRequestParser`: it reads the number of tagged fields of a topic and not the fields. -/
def parseMetadata (apiVersion : Int) : ByteReader MetadataRequest := do
  let topics ← readMetadataTopics apiVersion (do let _ ← readUnsignedVarint)
  let allowAutoTopicCreation ← readAllowAutoTopicCreation apiVersion
  -- the two flags that ask for authorized operations are read and not used
  if 8 ≤ apiVersion ∧ apiVersion ≤ 10 then
    let _ ← readBool
  if 8 ≤ apiVersion then
    let _ ← readBool
  if 9 ≤ apiVersion ∧ (← get) ≠ [] then
    let _ ← readUnsignedVarint
  return ⟨topics, allowAutoTopicCreation⟩

structure ScramDeletion where
  name : String
  mechanism : Int
  deriving DecidableEq

structure ScramUpsertion where
  name : String
  mechanism : Int
  iterations : Int
  salt : List UInt8
  saltedPassword : List UInt8
  deriving DecidableEq

/-- The entries of a compact array; none where it is null. -/
def readCompactArray {α : Type} (read : ByteReader α) : ByteReader (List α) := do
  let count ← readUnsignedVarint
  times read (count - 1)

/-- The users that are asked for: `none` stands for all users. -/
def parseDescribeUserScramCredentials : ByteReader (Option (List String)) := do
  let count ← readUnsignedVarint
  let users ← times (do
    let name ← (← readCompactString)
    skipTaggedFields fun _ => true
    return name) (count - 1)
  skipTaggedFields fun _ => true
  return if count = 0 then none else some users

def parseAlterUserScramCredentials : ByteReader (List ScramDeletion × List ScramUpsertion) := do
  let deletions ← readCompactArray do
    let name ← (← readCompactString)
    let mechanism ← readI8
    skipTaggedFields fun _ => true
    return (⟨name, mechanism⟩ : ScramDeletion)
  let upsertions ← readCompactArray do
    let name ← (← readCompactString)
    let mechanism ← readI8
    let iterations ← readI32
    let salt ← (← readCompactBytes)
    let saltedPassword ← (← readCompactBytes)
    skipTaggedFields fun _ => true
    return (⟨name, mechanism, iterations, salt, saltedPassword⟩ : ScramUpsertion)
  skipTaggedFields fun _ => true
  return (deletions, upsertions)

end ChronikStream.Protocol
