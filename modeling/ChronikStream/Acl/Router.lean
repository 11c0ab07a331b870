import ChronikStream.Acl.Store
import ChronikStream.Lib.Monitor
import ChronikStream.Metadata.EndTxn
import ChronikStream.Protocol.Request

/-!
# The router of Kafka requests

`handleRequestWithContext` reads the header of a request, applies the authentication gate and calls
the handler of the API. Handlers are programs over the components of the broker (`Lib/Monitor`);
`Effect.Touches` says which resources an effect works on. What the components make of an effect is
not modelled.
-/

namespace ChronikStream

open Monitor Protocol
open Metadata (EndTxnRequest)

/-! ## The connection -/

inductive SaslMode where
  | disabled | optional | required
  deriving DecidableEq

inductive AuthState where
  | disabled
  | unauthenticated
  | authenticated (principal : String)
  deriving DecidableEq

def AuthState.principal : AuthState → Option String
  | .authenticated principal => some ("User:" ++ principal)
  | _ => none

structure ConnectionContext where
  mode : SaslMode
  auth : AuthState
  peerIp : String

/-- The authentication gate. -/
def ConnectionContext.checkRequestAllowed (ctx : ConnectionContext) (apiKey : Int) : Bool :=
  ctx.mode = .disabled ∨ ctx.auth ≠ .unauthenticated ∨ apiKey ∈ [17, 18, 36] ∨ ctx.mode ≠ .required

/-! ## The authorizer -/

structure Access where
  resource : ResourceType × String
  operation : AclOperation
  deriving DecidableEq

/-- The ACL store, with the order in which its map is gone through. -/
structure Authorizer where
  acls : AclStore
  keys : List (ResourceType × String)

def Authorizer.authorize (a : Authorizer) (ctx : ConnectionContext) (r : Access) : Bool :=
  if a.acls.enabled = false then true
  else a.acls.authorize a.keys
    ⟨ctx.auth.principal.getD "User:ANONYMOUS", ctx.peerIp, r.resource.1, r.resource.2, r.operation⟩

def clusterResource : ResourceType × String := (.cluster, "kafka-cluster")

inductive RequiredAccess where
  | topic (operation : AclOperation)
  | group (operation : AclOperation)
  | cluster (operation : AclOperation)
  | transactionalId (operation : AclOperation)
  | none
  deriving DecidableEq

def requiredAccess (apiKey : Int) : RequiredAccess :=
  let table : List (Int × RequiredAccess) :=
    [(0, .topic .write), (1, .topic .read), (2, .topic .describe), (3, .topic .describe), (8, .group .read),
      (9, .group .describe), (10, .group .describe), (11, .group .read), (12, .group .read),
      (13, .group .read), (14, .group .read), (15, .group .describe), (16, .cluster .describe), (17, .none),
      (18, .none), (36, .none), (19, .cluster .create), (20, .topic .delete), (21, .topic .delete),
      (22, .transactionalId .write), (23, .topic .describe), (24, .transactionalId .write),
      (25, .transactionalId .write), (26, .transactionalId .write), (28, .transactionalId .write),
      (29, .cluster .alter), (30, .cluster .alter), (31, .cluster .alter), (32, .cluster .describeConfigs),
      (33, .cluster .alterConfigs), (35, .cluster .describe), (37, .topic .alter), (42, .group .delete),
      (44, .cluster .alterConfigs), (47, .group .delete)]
  (table.lookup apiKey).getD (.cluster .clusterAction)

/-- The access to a resource, if it is of the type the access is for. -/
def RequiredAccess.on (required : RequiredAccess) (resource : ResourceType × String) : Option Access :=
  match required, resource.1 with
  | .topic operation, .topic => some ⟨resource, operation⟩
  | .group operation, .group => some ⟨resource, operation⟩
  | .cluster operation, .cluster => some ⟨resource, operation⟩
  | .transactionalId operation, .transactionalId => some ⟨resource, operation⟩
  | _, _ => .none

/-! ## Requests and replies -/

namespace Router

def errorTopicAuthorizationFailed : Int := 29
def errorGroupAuthorizationFailed : Int := 30
def errorClusterAuthorizationFailed : Int := 31

structure ProducePartition where
  index : Int
  records : List UInt8

structure ProduceTopic where
  name : String
  partitions : List ProducePartition

structure ProduceRequest where
  transactionalId : Option String
  acks : Int
  timeoutMs : Int
  topics : List ProduceTopic

structure ProducedPartition where
  index : Int
  errorCode : Int
  baseOffset : Int
  logAppendTime : Int
  logStartOffset : Int

structure ProduceResponse where
  throttleTimeMs : Int
  topics : List (String × List ProducedPartition)

structure FetchPartition where
  partition : Int
  currentLeaderEpoch : Int
  fetchOffset : Int
  logStartOffset : Int
  partitionMaxBytes : Int

structure FetchTopic where
  name : String
  partitions : List FetchPartition

structure FetchRequest where
  replicaId : Int
  maxWaitMs : Int
  minBytes : Int
  maxBytes : Int
  isolationLevel : Int
  topics : List FetchTopic

structure FetchedPartition where
  partition : Int
  errorCode : Int
  highWatermark : Int
  lastStableOffset : Int
  logStartOffset : Int
  aborted : Option (List (Int × Int))
  preferredReadReplica : Int
  records : List UInt8

structure FetchedTopic where
  name : String
  partitions : List FetchedPartition

structure FetchResponse where
  throttleTimeMs : Int
  errorCode : Int
  sessionId : Int
  topics : List FetchedTopic

/-- A request of the group protocol: its group, and the rest as it stands. -/
structure GroupRequest where
  groupId : String
  rest : List UInt8

inductive GroupApi where
  | joinGroup | syncGroup | heartbeat | leaveGroup

structure CommitPartition where
  partitionIndex : Int
  committedOffset : Int
  committedMetadata : Option String

structure OffsetCommitRequest where
  groupId : String
  generationId : Int
  memberId : String
  topics : List (String × List CommitPartition)

structure OffsetCommitResponse where
  throttleTimeMs : Int
  topics : List (String × List (Int × Int))

structure OffsetFetchRequest where
  groupId : String
  topics : Option (List (String × List Int))

structure FetchedOffset where
  partitionIndex : Int
  committedOffset : Int
  metadata : Option String
  errorCode : Int

structure OffsetFetchResponse where
  throttleTimeMs : Int
  topics : List (String × List FetchedOffset)
  groupId : Option String

structure GroupMember where
  memberId : String
  groupInstanceId : Option String
  clientId : String
  clientHost : String
  memberMetadata : List UInt8
  memberAssignment : List UInt8

structure GroupDescription where
  state : String
  protocolType : String
  protocol : String
  members : List GroupMember

structure DescribedGroup where
  errorCode : Int
  groupId : String
  groupState : String
  protocolType : String
  protocolData : String
  members : List GroupMember
  authorizedOperations : Int

structure AclFilter where
  resourceType : Option ResourceType
  resourceName : Option String
  principal : Option String
  host : Option String
  operation : Option AclOperation

structure ScramCredentialRecord where
  username : String
  mechanism : Int
  iterations : Int
  salt : List UInt8
  storedKey : List UInt8
  serverKey : List UInt8

structure MetadataTopic where
  errorCode : Int
  name : String
  isInternal : Bool
  partitions : List Int

/-- What EndTxn looks at of a transaction. -/
structure BoundTransaction where
  producerId : Int
  producerEpoch : Int
  partitions : List (String × Nat)

inductive RaftRole where
  | standalone
  | leader
  | follower (leaderId : Option Nat)
  deriving DecidableEq

inductive HandlerError where
  | protocol
  | unauthorized (message : String)
  | internal (message : String)

inductive Reply where
  | metadata (topics : List MetadataTopic)
  | produce (response : ProduceResponse)
  | fetch (response : FetchResponse)
  | offsetCommit (response : OffsetCommitResponse)
  | offsetFetch (response : OffsetFetchResponse)
  | describeGroups (groups : List DescribedGroup)
  | createAcls (results : List (Int × Option String))
  | deleteAcls (results : List (Int × Option String × List AclBinding))
  | describeAcls (errorCode : Int) (errorMessage : Option String) (resources : List AclBinding)
  | describeScram (errorCode : Int) (errorMessage : Option String)
      (results : List (String × Int × Option String × List (Int × Int)))
  | alterScram (results : List (String × Int × Option String))
  | deleteRecords (topics : List (String × List (Int × Int × Int)))
  | deleteGroups (results : List (String × Int))
  | offsetDelete (errorCode : Int) (topics : List (String × List (Int × Int)))
  | endTxn (errorCode : Int)
  | body (bytes : List UInt8)

def Reply.recordTopics : Reply → List String
  | .fetch response =>
    (response.topics.filter fun topic => topic.partitions.any fun p => p.records ≠ []).map (·.name)
  | _ => []

abbrev Result := Except HandlerError Reply

def recordTopics : Result → List String
  | .ok reply => reply.recordTopics
  | .error _ => []

/-- How the bodies of the other requests are read, a SCRAM credential is derived and a control batch is
built. -/
structure RequestCodecs where
  produce : RequestHeader → List UInt8 → Option ProduceRequest
  fetch : RequestHeader → List UInt8 → Option FetchRequest
  group : GroupApi → RequestHeader → List UInt8 → Option GroupRequest
  offsetCommit : RequestHeader → List UInt8 → Option OffsetCommitRequest
  offsetFetch : RequestHeader → List UInt8 → Option OffsetFetchRequest
  describeGroups : RequestHeader → List UInt8 → Option (List String)
  createAcls : RequestHeader → List UInt8 → Option (List AclBinding)
  deleteAcls : RequestHeader → List UInt8 → Option (List AclFilter)
  describeAcls : RequestHeader → List UInt8 → Option AclFilter
  createTopics : RequestHeader → List UInt8 → Option (List (String × Int))
  deleteTopics : RequestHeader → List UInt8 → Option (List String)
  deleteGroups : RequestHeader → List UInt8 → Option (List String)
  offsetDelete : RequestHeader → List UInt8 → Option (String × List (String × List Int))
  endTxn : RequestHeader → List UInt8 → Option EndTxnRequest
  fromSaltedPassword : ScramUpsertion → Except String ScramCredentialRecord
  buildEndTxnMarker : EndTxnRequest → List UInt8

/-! ## The components -/

inductive Query where
  | expectedTopics
  | listTopics
  | getTopic (name : String)
  | getTopicsFromMetadata (requested : Option (List String))
  | fetchOffsets (request : OffsetFetchRequest)
  | groupStatus (groupId : String)
  | describeGroup (groupId : String)
  | describeAcls (filter : AclFilter)
  | listScramCredentials
  | getTransaction (transactionalId : String)
  | raftRole
  | answer (header : RequestHeader) (body : List UInt8)

abbrev Query.Answer : Query → Type
  | .expectedTopics => List String
  | .listTopics => Option (List String)
  | .getTopic _ => Bool
  | .getTopicsFromMetadata _ => Option (List MetadataTopic)
  | .fetchOffsets _ => Except String OffsetFetchResponse
  -- whether a group that is there has members
  | .groupStatus _ => Option Bool
  | .describeGroup _ => Option GroupDescription
  | .describeAcls _ => List AclBinding
  | .listScramCredentials => Except String (List (String × Int × Int))
  | .getTransaction _ => Except String (Option BoundTransaction)
  | .raftRole => RaftRole
  | .answer _ _ => Except String (List UInt8)

inductive Effect where
  | trackExpectedTopics (topics : List String)
  | autoCreateTopic (topic : String)
  | autoCreateTopicWithAssignments (topic : String)
  | handleProduce (request : ProduceRequest) (correlationId : Int)
  | handleFetch (request : FetchRequest) (correlationId : Int)
  | handleGroup (api : GroupApi) (request : GroupRequest) (header : RequestHeader)
  | handleOffsetCommit (request : OffsetCommitRequest)
  | createAcl (binding : AclBinding)
  | deleteAcls (filter : AclFilter)
  | deleteScramCredential (name : String) (mechanism : Int)
  | upsertScramCredential (record : ScramCredentialRecord)
  | deleteRecords (topic : String) (partition offset : Int)
  | cleanupTopic (topic : String)
  | removeGroupInMemory (groupId : String)
  | deleteConsumerGroup (groupId : String)
  | deleteConsumerOffsets (groupId : String) (partitions : List (String × Int))
  | prepareCommitTransaction (request : EndTxnRequest)
  | finishTransaction (request : EndTxnRequest)
  | initializeRaftPartitions (topic : String) (partitions : Int)
  | forwardToLeader (leaderId : Nat) (requestBytes : List UInt8)
  | protocolRequest (requestBytes : List UInt8)

abbrev Effect.Outcome : Effect → Type
  | .handleProduce _ _ => Except String ProduceResponse
  | .handleFetch _ _ => Except String FetchResponse
  | .handleGroup _ _ _ => Except String (List UInt8)
  | .handleOffsetCommit _ => Except String OffsetCommitResponse
  | .createAcl _ => Except String Unit
  | .deleteAcls _ => List AclBinding
  | .deleteScramCredential _ _ => Except String Unit
  | .upsertScramCredential _ => Except String Unit
  | .deleteRecords _ _ _ => Except Int Int
  | .finishTransaction _ => Except String Unit
  | .forwardToLeader _ _ => Except String (List UInt8)
  | .protocolRequest _ => Except String (List UInt8)
  | _ => Unit

/-- The resources an effect may change or return records of. Forwarded requests are left out. -/
def Effect.Touches : Effect → ResourceType × String → Prop
  | .trackExpectedTopics _, _ => False
  | .autoCreateTopic topic, r => r = (.topic, topic)
  | .autoCreateTopicWithAssignments topic, r => r = (.topic, topic)
  | .handleProduce request _, r => ∃ topic ∈ request.topics, r = (.topic, topic.name)
  | .handleFetch request _, r => ∃ topic ∈ request.topics, r = (.topic, topic.name)
  | .handleGroup _ request _, r => r = (.group, request.groupId)
  | .handleOffsetCommit request, r => r = (.group, request.groupId)
  | .createAcl _, r => r = clusterResource
  | .deleteAcls _, r => r = clusterResource
  | .deleteScramCredential _ _, r => r = clusterResource
  | .upsertScramCredential _, r => r = clusterResource
  | .deleteRecords topic _ _, r => r = (.topic, topic)
  | .cleanupTopic topic, r => r = (.topic, topic)
  | .removeGroupInMemory groupId, r => r = (.group, groupId)
  | .deleteConsumerGroup groupId, r => r = (.group, groupId)
  | .deleteConsumerOffsets groupId _, r => r = (.group, groupId)
  | .prepareCommitTransaction request, r => r = (.transactionalId, request.transactionalId)
  | .finishTransaction request, r => r = (.transactionalId, request.transactionalId)
  | .initializeRaftPartitions topic _, r => r = (.topic, topic)
  | .forwardToLeader _ _, _ => True
  | .protocolRequest _, _ => True

/-- What is relied on of what a component returns: a fetch returns topics it was asked for. -/
def Effect.MayReturn : (e : Effect) → e.Outcome → Prop
  | .handleFetch request _, .ok response =>
    ∀ topic ∈ response.topics, ∃ asked ∈ request.topics, topic.name = asked.name
  | _, _ => True

abbrev interface : Interface where
  Access := Access
  Query := Query
  Answer := Query.Answer
  Effect := Effect
  Outcome := Effect.Outcome

abbrev Handler := Prog interface

def ask (r : Access) : Handler Bool := Prog.askFor (I := interface) r

def read (q : Query) : Handler q.Answer := Prog.read (I := interface) q

def act (e : Effect) : Handler e.Outcome := Prog.act (I := interface) e

def reply {α : Type} (f : α → Reply) : Except String α → Result
  | .ok a => .ok (f a)
  | .error message => .error (.internal message)

/-! ## The authorizer's helpers -/

section handlers
variable (codecs : RequestCodecs) (enabled : Bool)

def partitionEach (operation : AclOperation) : List String → Handler (List String × List String)
  | [] => return ([], [])
  | topic :: topics => do
    let allowed ← ask ⟨(.topic, topic), operation⟩
    let rest ← partitionEach operation topics
    return if allowed then (topic :: rest.1, rest.2) else (rest.1, topic :: rest.2)

def partitionTopics (topics : List String) (operation : AclOperation) :
    Handler (List String × List String) :=
  if enabled then partitionEach operation topics else return (topics, [])

/-- `authorize` does not consult the store while ACLs are off. -/
def authorize (r : Access) : Handler Bool := if enabled then ask r else return true

/-! ## Handlers that ask -/

/-- Topics that are not listed are created one by one; a failure to list them is only logged. -/
def autoCreateTopics (topics : List String) : Handler Unit := do
  match ← read .listTopics with
  | none => return ()
  | some existing => (topics.filter (· ∉ existing)).forM fun topic => act (.autoCreateTopic topic)

/-- The same in the protocol handler, where a failure to list the topics is returned. -/
def autoCreateWithAssignments (topics : List String) : Handler Bool := do
  match ← read .listTopics with
  | none => return false
  | some existing => do
    (topics.filter (· ∉ existing)).forM fun topic => act (.autoCreateTopicWithAssignments topic)
    return true

/-- Of the topics that were asked for, those that may not be described carry an error; of all topics they are left
out. -/
def filterTopics (requested : Option (List String)) (authorized : List String)
    (topics : List MetadataTopic) : List MetadataTopic :=
  topics.filterMap fun topic =>
    if topic.name ∈ authorized then some topic
    else if requested.isSome then
      some { topic with errorCode := errorTopicAuthorizationFailed, partitions := [] }
    else none

/-- The topics are created before they are filtered. -/
def createRequested (request : MetadataRequest) : Handler Bool :=
  if request.allowAutoTopicCreation then request.topics.elim (pure true) autoCreateWithAssignments
  else pure true

variable (header : RequestHeader) (body : List UInt8)

def handleMetadataFiltered (authorized : Option (List String)) : Handler Result := do
  match parseMetadata header.apiVersion body with
  | none => return .error .protocol
  | some (request, _) =>
    let created ← createRequested request
    if created = false then return .error (.internal "Failed to list topics")
    let topics := (← read (.getTopicsFromMetadata request.topics)).getD []
    match authorized with
    | some names => return .ok (.metadata (filterTopics request.topics names topics))
    | none =>
      if topics.isEmpty ∧ request.allowAutoTopicCreation then
        let _ ← autoCreateWithAssignments ["chronik-default"]
        let topics ← read (.getTopicsFromMetadata request.topics)
        return .ok (.metadata (topics.getD [⟨0, "chronik-default", false, [0]⟩]))
      else return .ok (.metadata topics)

/-- The topics are created before the authorizer is asked. -/
def createMetadataTopics (request : MetadataRequest) : Handler Unit := do
  if request.allowAutoTopicCreation then
    match request.topics with
    | some requested =>
      if requested ≠ [] then
        act (.trackExpectedTopics requested)
        autoCreateTopics requested
    | none =>
      if header.apiVersion = 0 then
        let expected ← read .expectedTopics
        if expected ≠ [] then autoCreateTopics expected

/-- A request for all topics names none, so they are listed. -/
def metadataCandidates (request : MetadataRequest) : Handler (List String) :=
  match request.topics with
  | some requested => pure requested
  | none => do return (← read .listTopics).getD []

def handleMetadataRequest : Handler Result := do
  match routerMetadata header.apiVersion body with
  | none => return .error .protocol
  | some (request, _) =>
    createMetadataTopics header request
    if enabled then
      let candidates ← metadataCandidates request
      let (allowed, _) ← partitionTopics enabled candidates .describe
      handleMetadataFiltered header body (some allowed)
    else handleMetadataFiltered header body none

def produceAuthorizationDenied (request : ProduceRequest) : ProduceResponse where
  throttleTimeMs := 0
  topics := request.topics.map fun topic =>
    (topic.name, topic.partitions.map fun p => ⟨p.index, errorTopicAuthorizationFailed, -1, -1, -1⟩)

def handleProduceRequest : Handler Result := do
  match codecs.produce header body with
  | none => return .error .protocol
  | some request =>
    let topicNames := request.topics.map (·.name)
    let (_, denied) ← partitionTopics enabled topicNames .write
    if denied ≠ [] then return .ok (.produce (produceAuthorizationDenied request))
    if topicNames ≠ [] then autoCreateTopics topicNames
    return reply .produce (← act (.handleProduce request header.correlationId))

def fetchAuthorizationDenied (request : FetchRequest) : FetchResponse where
  throttleTimeMs := 0
  errorCode := 0
  sessionId := 0
  topics := request.topics.map fun topic =>
    ⟨topic.name, topic.partitions.map fun p =>
      ⟨p.partition, errorTopicAuthorizationFailed, -1, -1, -1, none, -1, []⟩⟩

def handleFetchRequest : Handler Result := do
  match codecs.fetch header body with
  | none => return .error .protocol
  | some request =>
    let (_, denied) ← partitionTopics enabled (request.topics.map (·.name)) .read
    if denied ≠ [] then return .ok (.fetch (fetchAuthorizationDenied request))
    return reply .fetch (← act (.handleFetch request header.correlationId))

def handleGroupRequest (api : GroupApi) (header : RequestHeader) (body : List UInt8) : Handler Result := do
  match codecs.group api header body with
  | none => return .error .protocol
  | some request =>
    if ← authorize enabled ⟨(.group, request.groupId), .read⟩ then
      return reply .body (← act (.handleGroup api request header))
    else
      return .error (.unauthorized s!"group authorization failed: group '{request.groupId}'")

def offsetCommitAuthorizationDenied (request : OffsetCommitRequest) : OffsetCommitResponse where
  throttleTimeMs := 0
  topics := request.topics.map fun topic =>
    (topic.1, topic.2.map fun p => (p.partitionIndex, errorGroupAuthorizationFailed))

def handleOffsetCommitRequest : Handler Result := do
  match codecs.offsetCommit header body with
  | none => return .error .protocol
  | some request =>
    if ← authorize enabled ⟨(.group, request.groupId), .read⟩ then
      return reply .offsetCommit (← act (.handleOffsetCommit request))
    else return .ok (.offsetCommit (offsetCommitAuthorizationDenied request))

def offsetFetchAuthorizationDenied (request : OffsetFetchRequest) : OffsetFetchResponse where
  throttleTimeMs := 0
  topics := (request.topics.getD []).map fun topic =>
    (topic.1, topic.2.map fun index => ⟨index, -1, none, errorGroupAuthorizationFailed⟩)
  groupId := some request.groupId

def handleOffsetFetchRequest : Handler Result := do
  match codecs.offsetFetch header body with
  | none => return .error .protocol
  | some request =>
    if ← authorize enabled ⟨(.group, request.groupId), .describe⟩ then
      return reply .offsetFetch (← read (.fetchOffsets request))
    else return .ok (.offsetFetch (offsetFetchAuthorizationDenied request))

def noAuthorizedOperations : Int := -2 ^ 31

def describeGroup (groupId : String) : Handler DescribedGroup := do
  if ← authorize enabled ⟨(.group, groupId), .describe⟩ then
    match ← read (.describeGroup groupId) with
    | some d => return ⟨0, groupId, d.state, d.protocolType, d.protocol, d.members, noAuthorizedOperations⟩
    | none => return ⟨69, groupId, "", "", "", [], noAuthorizedOperations⟩
  else return ⟨errorGroupAuthorizationFailed, groupId, "", "", "", [], noAuthorizedOperations⟩

def handleDescribeGroupsRequest : Handler Result := do
  match codecs.describeGroups header body with
  | none => return .error .protocol
  | some groupIds => return .ok (.describeGroups (← groupIds.mapM' (describeGroup enabled)))

def handleCreateAclsRequest : Handler Result := do
  match codecs.createAcls header body with
  | none => return .error .protocol
  | some creations =>
    if ← authorize enabled ⟨clusterResource, .alter⟩ then
      let results ← creations.mapM' fun binding => do
        match ← act (.createAcl binding) with
        | .ok () => return (0, none)
        | .error message => return (42, some message)
      return .ok (.createAcls results)
    else return .ok (.createAcls (creations.map fun _ =>
      (errorClusterAuthorizationFailed, some "Not authorized to alter ACLs")))

def handleDeleteAclsRequest : Handler Result := do
  match codecs.deleteAcls header body with
  | none => return .error .protocol
  | some filters =>
    if ← authorize enabled ⟨clusterResource, .alter⟩ then
      let results ← filters.mapM' fun filter => do return (0, none, ← act (.deleteAcls filter))
      return .ok (.deleteAcls results)
    else return .ok (.deleteAcls (filters.map fun _ =>
      (errorClusterAuthorizationFailed, some "Not authorized to alter ACLs", [])))

def handleDescribeAclsRequest : Handler Result := do
  match codecs.describeAcls header body with
  | none => return .error .protocol
  | some filter =>
    if ← authorize enabled ⟨clusterResource, .describe⟩ then
      return .ok (.describeAcls 0 none (← read (.describeAcls filter)))
    else return .ok (.describeAcls errorClusterAuthorizationFailed
      (some "Not authorized to describe ACLs") [])

/-- The credentials of a user: mechanism and iterations. -/
def credentialInfos (stored : List (String × Int × Int)) (user : String) : List (Int × Int) :=
  (stored.filter (·.1 = user)).map (·.2)

/-- One line for each user that is named, or for each user that is there. -/
def describeUsers (stored : List (String × Int × Int)) :
    Option (List String) → List (String × Int × Option String × List (Int × Int))
  | some users => users.map fun user =>
    match credentialInfos stored user with
    | [] => (user, 89, some "User not found", [])
    | infos => (user, 0, none, infos)
  | none => (stored.map (·.1)).eraseDups.map fun user => (user, 0, none, credentialInfos stored user)

def handleDescribeUserScramCredentials : Handler Result := do
  match parseDescribeUserScramCredentials body with
  | none => return .error .protocol
  | some (users, _) =>
    if ← authorize enabled ⟨clusterResource, .describe⟩ then
      return reply (fun stored => .describeScram 0 none (describeUsers stored users))
        (← read .listScramCredentials)
    else return .ok (.describeScram errorClusterAuthorizationFailed
      (some "Not authorized to describe users") [])

/-- The line of a user whose credential a component has been asked to change. -/
def alterResult (user : String) : Except String Unit → String × Int × Option String
  | .ok () => (user, 0, none)
  | .error message => (user, 42, some message)

def upsertCredential (upsertion : ScramUpsertion) : Handler (String × Int × Option String) := do
  if upsertion.mechanism ≠ 1 ∧ upsertion.mechanism ≠ 2 then
    return (upsertion.name, 37, some s!"Unknown SCRAM mechanism code {upsertion.mechanism}")
  match codecs.fromSaltedPassword upsertion with
  | .error message => return (upsertion.name, 42, some message)
  | .ok record => return alterResult upsertion.name (← act (.upsertScramCredential record))

def handleAlterUserScramCredentials : Handler Result := do
  match parseAlterUserScramCredentials body with
  | none => return .error .protocol
  | some ((deletions, upsertions), _) =>
    if ← authorize enabled ⟨clusterResource, .alter⟩ then
      let deleted ← deletions.mapM' fun deletion => do
        return alterResult deletion.name (← act (.deleteScramCredential deletion.name deletion.mechanism))
      let upserted ← upsertions.mapM' (upsertCredential codecs)
      return .ok (.alterScram (deleted ++ upserted))
    else return .ok (.alterScram ((deletions.map (·.name) ++ upsertions.map (·.name)).map fun user =>
      (user, errorClusterAuthorizationFailed, some "Not authorized to alter users")))

/-! ## Handlers that do not ask -/

/-- A partition and the offset before which its records go: the low watermark and the error code. -/
def deletePartitionRecords (topic : String) (topicExists : Bool) (p : Int × Int) :
    Handler (Int × Int × Int) := do
  if topicExists = false then return (p.1, -1, 3)
  match ← act (.deleteRecords topic p.1 p.2) with
  | .ok lowWatermark => return (p.1, lowWatermark, 0)
  | .error code => return (p.1, -1, code)

def deleteTopicRecords (topic : DeleteRecordsTopic) : Handler (String × List (Int × Int × Int)) := do
  let topicExists ← read (.getTopic topic.name)
  return (topic.name, ← topic.partitions.mapM' (deletePartitionRecords topic.name topicExists))

def handleDeleteRecordsRequest : Handler Result := do
  match decodeDeleteRecords body with
  | none => return .error .protocol
  | some ((topics, _), _) => return .ok (.deleteRecords (← topics.mapM' deleteTopicRecords))

/-- The topics are named for the cleanup of the WAL; the protocol handler reads the request again. -/
def handleDeleteTopicsRequest (requestBytes : List UInt8) : Handler Result := do
  let topicNames := (codecs.deleteTopics header body).getD []
  match ← act (.protocolRequest requestBytes) with
  | .error message => return .error (.internal message)
  | .ok bytes => do
    topicNames.forM fun topic => act (.cleanupTopic topic)
    return .ok (.body bytes)

def deleteGroup (groupId : String) : Handler (String × Int) := do
  match ← read (.groupStatus groupId) with
  | none => return (groupId, 69)
  | some true => return (groupId, 68)
  | some false => do
    act (.removeGroupInMemory groupId)
    act (.deleteConsumerGroup groupId)
    return (groupId, 0)

def handleDeleteGroupsRequest : Handler Result := do
  match codecs.deleteGroups header body with
  | none => return .error .protocol
  | some groupIds => return .ok (.deleteGroups (← groupIds.mapM' deleteGroup))

/-- The error of the group, and the error of each of its partitions. -/
def offsetDeleteErrors : Option Bool → Int × Int
  | none => (69, 69)
  | some true => (0, 86)
  | some false => (0, 0)

def deleteOffsets (groupId : String) (partitions : List (String × Int)) : Handler Unit := do
  if partitions ≠ [] then act (.deleteConsumerOffsets groupId partitions)

def handleOffsetDeleteRequest : Handler Result := do
  match codecs.offsetDelete header body with
  | none => return .error .protocol
  | some (groupId, topics) =>
    let (groupError, errorCode) := offsetDeleteErrors (← read (.groupStatus groupId))
    let partitions := topics.flatMap fun t => t.2.map fun p => (t.1, p)
    deleteOffsets groupId (if errorCode = 0 then partitions else [])
    return .ok (.offsetDelete groupError (topics.map fun t => (t.1, t.2.map fun p => (p, errorCode))))

/-- One control batch for each partition of the transaction, grouped by topic. -/
def markerRequest (request : EndTxnRequest) (partitions : List (String × Nat)) : ProduceRequest where
  transactionalId := some request.transactionalId
  acks := 1
  timeoutMs := 30000
  topics := (partitions.map (·.1)).eraseDups.map fun topic =>
    ⟨topic, (partitions.filter (·.1 = topic)).map fun p => ⟨p.2, codecs.buildEndTxnMarker request⟩⟩

/-- The intent to commit, and then the markers. -/
def writeMarkers (request : EndTxnRequest) (partitions : List (String × Nat)) : Handler Unit := do
  if request.committed then act (.prepareCommitTransaction request)
  if partitions ≠ [] then
    let _ ← act (.handleProduce (markerRequest codecs request partitions) header.correlationId)

def endTransaction (request : EndTxnRequest) (txn : BoundTransaction) : Handler Int := do
  if request.producerId ≠ txn.producerId ∨ request.producerEpoch < txn.producerEpoch then return 47
  writeMarkers codecs header request txn.partitions
  match ← act (.finishTransaction request) with
  | .ok () => return 0
  | .error _ => return 15

def handleEndTxnRequest : Handler Result := do
  match codecs.endTxn header body with
  | none => return .error .protocol
  | some request =>
    match ← read (.getTransaction request.transactionalId) with
    | .error _ => return .ok (.endTxn 15)
    | .ok none => return .ok (.endTxn 0)
    | .ok (some txn) => return .ok (.endTxn (← endTransaction codecs header request txn))

/-- A follower that knows the leader forwards the request. -/
def forwardCreateTopics (requestBytes : List UInt8) : Handler (Option Result) := do
  match ← read .raftRole with
  | .follower (some leaderId) =>
    match ← act (.forwardToLeader leaderId requestBytes) with
    | .ok bytes => return some (.ok (.body bytes))
    | .error _ => return none
  | _ => return none

def initializePartitions : Handler Unit := do
  let role ← read .raftRole
  if role = .standalone ∨ role = .leader then
    ((codecs.createTopics header body).getD []).forM fun topic =>
      if 0 < topic.2 then act (.initializeRaftPartitions topic.1 topic.2) else return ()

def handleCreateTopicsRequest (requestBytes : List UInt8) : Handler Result := do
  match ← forwardCreateTopics requestBytes with
  | some result => return result
  | none =>
    match ← act (.protocolRequest requestBytes) with
    | .error message => return .error (.internal message)
    | .ok bytes => do
      initializePartitions codecs header body
      return .ok (.body bytes)

def answer : Handler Result := do
  return reply .body (← read (.answer header body))

/-- The APIs of the default handler that the protocol handler writes for. -/
def protocolWrites : List ApiKey :=
  [.alterConfigs, .incrementalAlterConfigs, .createPartitions, .initProducerId, .addPartitionsToTxn,
    .txnOffsetCommit]

def handleDefaultRequest (requestBytes : List UInt8) : Handler Result := do
  if header.apiKey ∈ protocolWrites then return reply .body (← act (.protocolRequest requestBytes))
  else answer header body

/-! ## The router -/

def route (requestBytes : List UInt8) : Handler Result :=
  match header.apiKey with
  | .metadata => handleMetadataRequest enabled header body
  | .produce => handleProduceRequest codecs enabled header body
  | .fetch => handleFetchRequest codecs enabled header body
  | .listOffsets => answer header body
  | .findCoordinator => answer header body
  | .joinGroup => handleGroupRequest codecs enabled .joinGroup header body
  | .syncGroup => handleGroupRequest codecs enabled .syncGroup header body
  | .heartbeat => handleGroupRequest codecs enabled .heartbeat header body
  | .leaveGroup => handleGroupRequest codecs enabled .leaveGroup header body
  | .offsetCommit => handleOffsetCommitRequest codecs enabled header body
  | .offsetFetch => handleOffsetFetchRequest codecs enabled header body
  | .createTopics => handleCreateTopicsRequest codecs header body requestBytes
  | .describeUserScramCredentials => handleDescribeUserScramCredentials enabled body
  | .alterUserScramCredentials => handleAlterUserScramCredentials codecs enabled body
  | .describeAcls => handleDescribeAclsRequest codecs enabled header body
  | .createAcls => handleCreateAclsRequest codecs enabled header body
  | .deleteAcls => handleDeleteAclsRequest codecs enabled header body
  | .saslHandshake => answer header body
  | .saslAuthenticate => answer header body
  | .deleteTopics => handleDeleteTopicsRequest codecs header body requestBytes
  | .deleteRecords => handleDeleteRecordsRequest body
  | .deleteGroups => handleDeleteGroupsRequest codecs header body
  | .offsetDelete => handleOffsetDeleteRequest codecs header body
  | .listGroups => answer header body
  | .describeGroups => handleDescribeGroupsRequest codecs enabled header body
  | .endTxn => handleEndTxnRequest codecs header body
  | .offsetForLeaderEpoch => answer header body
  | _ => handleDefaultRequest header body requestBytes

/-- For clients that cannot name the topics they want. -/
def inferExpectedTopics : Handler Unit := do
  let expected ← read .expectedTopics
  if expected = [] then act (.trackExpectedTopics ["test-topic", "test"])

def handleRequestWithContext (ctx : ConnectionContext) (requestBytes : List UInt8) : Handler Result := do
  inferExpectedTopics
  match parseRequestHeader requestBytes with
  | none => return .error .protocol
  | some (header, body) =>
    let apiKey := header.apiKey.toI16
    if ctx.checkRequestAllowed apiKey then route codecs enabled header body requestBytes
    else return .error (.unauthorized (s!"SASL authentication required: Request (API key {apiKey}) " ++
      "is not permitted before SASL authentication completes"))

end handlers

end Router

end ChronikStream
