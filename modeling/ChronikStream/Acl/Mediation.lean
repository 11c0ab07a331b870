import ChronikStream.Acl.DenyWins
import ChronikStream.Acl.Router
import ChronikStream.Produce.DeleteRecords

/-!
# What a request can do without a permission

A request whose handler asks changes a resource, or returns records of it, only if the authorizer
allows the access that `requiredAccess` assigns to the API (`request_mediated`). Twelve APIs have
handlers that do not ask (`unmediated_ignores_acls`), Metadata creates topics before it asks, and
AlterUserScramCredentials asks for another operation.
-/

namespace ChronikStream

open Monitor Protocol Router List Option Function AskFree

/-! ## The components and what they keep -/

/-- The components of a broker. The state of a resource changes only by effects that touch it. -/
structure Components (σ V : Type) extends Store Router.interface σ where
  view : σ → ResourceType × String → V
  frame : ∀ (e : Effect) (s : σ) (resource : ResourceType × String), ¬ e.Touches resource →
    view (perform e s).2 resource = view s resource
  returns : ∀ (e : Effect) (s : σ), e.MayReturn (perform e s).1

/-- What a request returns and the state it leaves. -/
def Components.handleRequest {σ V : Type} (c : Components σ V) (codecs : RequestCodecs) (a : Authorizer)
    (ctx : ConnectionContext) (requestBytes : List UInt8) (s : σ) : Router.Result × σ :=
  (handleRequestWithContext codecs a.acls.enabled ctx requestBytes).run (a.authorize ctx) c.toStore s

/-! ## A broker of topics with one partition -/

/-- The topics, the states of their partitions, and the users with a SCRAM credential. -/
structure SmallBroker where
  names : List String
  partitions : String → Option PartitionState
  users : List (String × Int)

namespace SmallBroker

section
variable (s : SmallBroker)

def create (topic : String) : SmallBroker :=
  { s with
    names := s.names ++ [topic]
    partitions := update s.partitions topic (some (.new 0 0)) }

/-- The new low watermark is stored and returned. -/
def deleteRecords (topic : String) (offset : Int) : Except Int Int × SmallBroker :=
  match s.partitions topic with
  | none => (.error 3, s)
  | some state =>
    match DeletablePartition.newLowWatermark state offset with
    | none => (.error 1, s)
    | some newLso =>
      let state := { state with logStartOffset := asU64 newLso }
      (.ok newLso, { s with partitions := update s.partitions topic (some state) })

def deleteUser (user : String × Int) : SmallBroker := { s with users := s.users.erase user }

def answer (s : SmallBroker) : (q : Query) → q.Answer
  | .expectedTopics => ["test-topic", "test"]
  | .listTopics => some s.names
  | .getTopic name => decide (name ∈ s.names)
  | .getTopicsFromMetadata _ => some (s.names.map fun name => ⟨0, name, false, [0]⟩)
  | .fetchOffsets _ => .error "not served"
  | .groupStatus _ => none
  | .describeGroup _ => none
  | .describeAcls _ => []
  | .listScramCredentials => .error "not served"
  | .getTransaction _ => .error "not served"
  | .raftRole => .standalone
  | .answer _ _ => .error "not served"

def perform : (e : Effect) → e.Outcome × SmallBroker
  | .autoCreateTopic topic => ((), s.create topic)
  | .autoCreateTopicWithAssignments topic => ((), s.create topic)
  | .deleteRecords topic _ offset => s.deleteRecords topic offset
  | .deleteScramCredential name mechanism => (.ok (), s.deleteUser (name, mechanism))
  | .handleProduce _ _ => (.error "not served", s)
  | .handleFetch _ _ => (.error "not served", s)
  | .handleGroup _ _ _ => (.error "not served", s)
  | .handleOffsetCommit _ => (.error "not served", s)
  | .createAcl _ => (.error "not served", s)
  | .deleteAcls _ => ([], s)
  | .upsertScramCredential _ => (.error "not served", s)
  | .finishTransaction _ => (.error "not served", s)
  | .forwardToLeader _ _ => (.error "not served", s)
  | .protocolRequest _ => (.error "not served", s)
  | .trackExpectedTopics _ => ((), s)
  | .cleanupTopic _ => ((), s)
  | .removeGroupInMemory _ => ((), s)
  | .deleteConsumerGroup _ => ((), s)
  | .deleteConsumerOffsets _ _ => ((), s)
  | .prepareCommitTransaction _ => ((), s)
  | .initializeRaftPartitions _ _ => ((), s)

def view (resource : ResourceType × String) : Option PartitionState × List (String × Int) :=
  (if resource.1 = .topic then s.partitions resource.2 else none,
    if resource = clusterResource then s.users else [])

end

theorem view_of_update (s : SmallBroker)
    (h : resource ≠ (.topic, topic)) (names : List String) (state : Option PartitionState) :
    view { s with names := names, partitions := update s.partitions topic state } resource =
      s.view resource := by
  obtain ⟨type, name⟩ := resource
  rw [view, view]
  by_cases htype : type = .topic
  · subst htype
    have hname : name ≠ topic := fun heq => h (by rw [heq])
    dsimp only
    rw [update_of_ne hname]
  · rw [if_neg htype, if_neg htype]

theorem view_perform (s : SmallBroker) (e : Effect) (resource : ResourceType × String)
    (h : ¬ e.Touches resource) : (s.perform e).2.view resource = s.view resource := by
  cases e with
  | autoCreateTopic topic | autoCreateTopicWithAssignments topic => exact s.view_of_update h _ _
  | deleteRecords topic partition offset =>
    change (s.deleteRecords topic offset).2.view resource = _
    rw [deleteRecords]
    split
    · rfl
    split
    · rfl
    · exact s.view_of_update h _ _
  | deleteScramCredential name mechanism =>
    have hcluster : resource ≠ clusterResource := h
    rw [view, view, if_neg hcluster, if_neg hcluster]
    rfl
  | _ => rfl

def components : Components SmallBroker (Option PartitionState × List (String × Int)) where
  answer q s := s.answer q
  perform e s := s.perform e
  view := view
  frame e s := s.view_perform e
  returns e s := by cases e <;> trivial

end SmallBroker

open SmallBroker (components)

/-! ## Requests that are mediated -/

/-- No Allow in the store matches a request of the principal. -/
def AclStore.GrantsNothing (acls : AclStore) (principal : String) : Prop :=
  ∀ b, acls.Holds b → b.permissionType = .allow →
    ∀ r : AccessRequest, r.principal = principal → ¬ b.EntryMatches r

/-- With ACLs on and denial by default: an authenticated principal that is granted nothing. -/
structure Unprivileged (a : Authorizer) (ctx : ConnectionContext) : Prop where
  enabled : a.acls.enabled = true
  denied : a.acls.allowIfNoAcl = false
  principal : ∃ name, ctx.auth = .authenticated name ∧ "User:" ++ name ∉ a.acls.superUsers ∧
    a.acls.GrantsNothing ("User:" ++ name)

/-- The APIs whose handlers perform effects without asking. -/
def unmediated : List ApiKey :=
  [.createTopics, .deleteTopics, .deleteRecords, .deleteGroups, .offsetDelete, .endTxn] ++ protocolWrites

/-- A Metadata request that names topics to create, or leaves that to the router. -/
def CreatesTopics (apiVersion : Int) (request : MetadataRequest) : Prop :=
  request.allowAutoTopicCreation = true ∧ request.topics ≠ some [] ∧
    (request.topics = none → apiVersion = 0)
deriving Decidable

/-- The API is mediated, and it is no Metadata request that creates topics for one of its two
readers. -/
def Mediated (header : RequestHeader) (body : List UInt8) : Prop :=
  header.apiKey ∉ unmediated ∧
  (header.apiKey = .metadata →
    (∀ x ∈ routerMetadata header.apiVersion body, ¬ CreatesTopics header.apiVersion x.1) ∧
    ∀ x ∈ parseMetadata header.apiVersion body, ¬ CreatesTopics header.apiVersion x.1)
deriving Decidable

def handlerAccess (apiKey : ApiKey) : RequiredAccess :=
  if apiKey = .alterUserScramCredentials then .cluster .alter else requiredAccess apiKey.toI16

def Allows (permit : Access → Bool) (required : RequiredAccess) (resource : ResourceType × String) : Prop :=
  ∃ r, required.on resource = some r ∧ permit r = true

/-! ## The handlers -/

section handlers

variable {permit : Access → Bool} {required : RequiredAccess}

/-- Effects only on resources to which the access is allowed. -/
def mediation (permit : Access → Bool) (required : RequiredAccess) : Spec Router.interface where
  permit := permit
  mayPerform e := ∀ resource, e.Touches resource → Allows permit required resource
  mayReturn := Effect.MayReturn

/-- The records in the result are of topics to which the access is allowed. -/
def RecordsAllowed (permit : Access → Bool) (required : RequiredAccess) (result : Router.Result) : Prop :=
  ∀ name ∈ recordTopics result, Allows permit required (.topic, name)

/-- The handler stays within the accesses that are allowed. -/
def Serves (permit : Access → Bool) (required : RequiredAccess) (handler : Handler Router.Result) : Prop :=
  Safe (mediation permit required) handler (RecordsAllowed permit required)

variable {enabled : Bool} {header : RequestHeader}

theorem recordsAllowed_error (e : HandlerError) : RecordsAllowed permit required (.error e) :=
  forall_mem_nil _

theorem recordsAllowed_ok (h : r.recordTopics = []) : RecordsAllowed permit required (.ok r) := by
  intro name hname
  rw [recordTopics, h] at hname
  exact absurd hname not_mem_nil

theorem recordsAllowed_reply {α : Type} {f : α → Reply} (h : ∀ a, (f a).recordTopics = [])
    (o : Except String α) : RecordsAllowed permit required (reply f o) := by
  cases o with
  | ok a => exact recordsAllowed_ok (h a)
  | error message => exact recordsAllowed_error _

theorem allows_of_eq (hon : required.on resource = some r)
    (hr : permit r = true) : ∀ touched, touched = resource → Allows permit required touched := by
  rintro _ rfl
  exact ⟨r, hon, hr⟩

section asking
-- While ACLs are off every access is allowed.
variable (henabled : enabled = false → ∀ r, permit r = true)
include henabled

theorem safe_authorize {next : Bool → Handler α}
    (htrue : permit r = true → Safe (mediation permit required) (next true) post)
    (hfalse : Safe (mediation permit required) (next false) post) :
    Safe (mediation permit required) (authorize enabled r >>= next) post := by
  cases henabled' : enabled with
  | false => exact htrue (henabled henabled' r)
  | true =>
  refine safe_askFor_bind ?_
  change Safe _ (next (permit r)) post
  cases hr : permit r with
  | false => exact hfalse
  | true => exact htrue hr

theorem safe_partitionTopics :
    Safe (mediation permit required) (partitionTopics enabled topics operation)
      fun x => x.2 = [] → ∀ topic ∈ topics, permit ⟨(.topic, topic), operation⟩ = true := by
  cases henabled' : enabled with
  | false => exact fun _ topic _ => henabled henabled' _
  | true =>
  induction topics with
  | nil => exact fun _ _ h => absurd h not_mem_nil
  | cons topic topics ih =>
    refine safe_askFor_bind (safe_bind.2 (ih.mono fun rest hrest => ?_))
    split
    case isTrue htopic =>
      intro hnil t ht
      rcases mem_cons.1 ht with rfl | ht
      · exact htopic
      · exact hrest hnil t ht
    case isFalse => exact fun hnil => absurd hnil (cons_ne_nil _ _)

omit henabled in
theorem safe_autoCreateTopics (h : ∀ topic ∈ topics, Allows permit required (.topic, topic)) :
    Safe (mediation permit required) (autoCreateTopics topics) fun _ => True := by
  rw [autoCreateTopics, safe_bind]
  rintro (_ | existing)
  · trivial
  · refine safe_forM fun topic htopic => ⟨?_, fun _ _ => trivial⟩
    rintro _ rfl
    exact h topic (mem_filter.1 htopic).1

omit henabled in
theorem safe_autoCreateWithAssignments
    (h : ∀ topic ∈ topics, Allows permit required (.topic, topic)) :
    Safe (mediation permit required) (autoCreateWithAssignments topics) fun _ => True := by
  rw [autoCreateWithAssignments, safe_bind]
  rintro (_ | existing)
  · trivial
  · have hloop : Safe (mediation permit required) ((topics.filter (· ∉ existing)).forM fun topic =>
        act (.autoCreateTopicWithAssignments topic)) fun _ => True := by
      refine safe_forM fun topic htopic => ⟨?_, fun _ _ => trivial⟩
      rintro _ rfl
      exact h topic (mem_filter.1 htopic).1
    exact safe_bind.2 (hloop.mono fun _ _ => trivial)

theorem safe_handleProduceRequest :
    Serves permit (.topic .write) (handleProduceRequest codecs enabled header body) := by
  rw [handleProduceRequest]
  split
  · exact recordsAllowed_error _
  rename_i request hrequest
  refine safe_bind.2 ((safe_partitionTopics henabled).mono ?_)
  rintro ⟨allowed, denied⟩ hallowed
  dsimp only
  split
  · exact recordsAllowed_ok rfl
  rename_i hdenied
  have htopics : ∀ name ∈ request.topics.map (·.name), Allows permit (.topic .write) (.topic, name) :=
    fun name hname => ⟨_, rfl, hallowed (not_not.1 hdenied) name hname⟩
  have hproduce : Safe (mediation permit (.topic .write))
      (do return reply .produce (← act (.handleProduce request header.correlationId)))
      (RecordsAllowed permit (.topic .write)) := by
    refine safe_act_bind ?_ fun o _ => recordsAllowed_reply (fun _ => rfl) o
    rintro _ ⟨topic, htopic, rfl⟩
    exact htopics _ (mem_map_of_mem htopic)
  split
  · exact safe_bind.2 ((safe_autoCreateTopics htopics).mono fun _ _ => hproduce)
  · exact hproduce

theorem safe_handleFetchRequest :
    Serves permit (.topic .read) (handleFetchRequest codecs enabled header body) := by
  rw [handleFetchRequest]
  split
  · exact recordsAllowed_error _
  rename_i request hrequest
  refine safe_bind.2 ((safe_partitionTopics henabled).mono ?_)
  rintro ⟨allowed, denied⟩ hallowed
  dsimp only
  split
  · exact recordsAllowed_ok (by simp [Reply.recordTopics, fetchAuthorizationDenied])
  rename_i hdenied
  have htopics : ∀ topic ∈ request.topics, Allows permit (.topic .read) (.topic, topic.name) :=
    fun topic htopic => ⟨_, rfl, hallowed (not_not.1 hdenied) _ (mem_map_of_mem htopic)⟩
  refine safe_act_bind ?_ ?_
  · rintro _ ⟨topic, htopic, rfl⟩
    exact htopics topic htopic
  · rintro (message | response) hreturn
    · exact recordsAllowed_error _
    · intro name hname
      obtain ⟨topic, htopic, rfl⟩ := mem_map.1 hname
      obtain ⟨asked, hasked, heq⟩ := hreturn topic (mem_filter.1 htopic).1
      rw [heq]
      exact htopics asked hasked

theorem safe_handleGroupRequest (api : GroupApi) :
    Serves permit (.group .read) (handleGroupRequest codecs enabled api header body) := by
  rw [handleGroupRequest]
  split
  · exact recordsAllowed_error _
  · refine safe_authorize henabled (fun hr => ?_) (recordsAllowed_error _)
    exact safe_act_bind (allows_of_eq rfl hr) fun o _ => recordsAllowed_reply (fun _ => rfl) o

theorem safe_handleOffsetCommitRequest :
    Serves permit (.group .read) (handleOffsetCommitRequest codecs enabled header body) := by
  rw [handleOffsetCommitRequest]
  split
  · exact recordsAllowed_error _
  · refine safe_authorize henabled (fun hr => ?_) (recordsAllowed_ok rfl)
    exact safe_act_bind (allows_of_eq rfl hr) fun o _ => recordsAllowed_reply (fun _ => rfl) o

theorem safe_handleOffsetFetchRequest :
    Serves permit required (handleOffsetFetchRequest codecs enabled header body) := by
  rw [handleOffsetFetchRequest]
  split
  · exact recordsAllowed_error _
  · exact safe_authorize henabled (fun _ o => recordsAllowed_reply (fun _ => rfl) o) (recordsAllowed_ok rfl)

theorem safe_describeGroup (groupId : String) :
    Safe (mediation permit required) (describeGroup enabled groupId) fun _ => True := by
  refine safe_authorize henabled (fun _ => ?_) trivial
  rintro (_ | description) <;> trivial

theorem safe_handleDescribeGroupsRequest :
    Serves permit required (handleDescribeGroupsRequest codecs enabled header body) := by
  rw [handleDescribeGroupsRequest]
  split
  · exact recordsAllowed_error _
  · exact safe_mapM_bind (fun groupId _ => safe_describeGroup henabled groupId) fun _ => recordsAllowed_ok rfl

theorem safe_handleCreateAclsRequest :
    Serves permit (.cluster .alter) (handleCreateAclsRequest codecs enabled header body) := by
  rw [handleCreateAclsRequest]
  split
  · exact recordsAllowed_error _
  refine safe_authorize henabled (fun hr => ?_) (recordsAllowed_ok rfl)
  refine safe_mapM_bind (fun binding _ => ?_) fun _ => recordsAllowed_ok rfl
  refine safe_act_bind (allows_of_eq rfl hr) ?_
  rintro (message | _) _ <;> trivial

theorem safe_handleDeleteAclsRequest :
    Serves permit (.cluster .alter) (handleDeleteAclsRequest codecs enabled header body) := by
  rw [handleDeleteAclsRequest]
  split
  · exact recordsAllowed_error _
  refine safe_authorize henabled (fun hr => ?_) (recordsAllowed_ok rfl)
  refine safe_mapM_bind (fun filter _ => ?_) fun _ => recordsAllowed_ok rfl
  exact (safe_act _).2 ⟨allows_of_eq rfl hr, fun _ _ => trivial⟩

theorem safe_handleDescribeAclsRequest :
    Serves permit required (handleDescribeAclsRequest codecs enabled header body) := by
  rw [handleDescribeAclsRequest]
  split
  · exact recordsAllowed_error _
  · exact safe_authorize henabled (fun _ _ => recordsAllowed_ok rfl) (recordsAllowed_ok rfl)

theorem safe_handleDescribeUserScramCredentials :
    Serves permit required (handleDescribeUserScramCredentials enabled body) := by
  rw [handleDescribeUserScramCredentials]
  split
  · exact recordsAllowed_error _
  · exact safe_authorize henabled (fun _ o => recordsAllowed_reply (fun _ => rfl) o) (recordsAllowed_ok rfl)

theorem safe_handleAlterUserScramCredentials :
    Serves permit (.cluster .alter) (handleAlterUserScramCredentials codecs enabled body) := by
  rw [handleAlterUserScramCredentials]
  split
  · exact recordsAllowed_error _
  refine safe_authorize henabled (fun hr => ?_) (recordsAllowed_ok rfl)
  have hcluster : ∀ resource, resource = clusterResource → Allows permit (.cluster .alter) resource :=
    allows_of_eq rfl hr
  refine safe_mapM_bind (fun deletion _ => ⟨hcluster, fun _ _ => trivial⟩) fun deleted => ?_
  refine safe_mapM_bind (fun upsertion _ => ?_) fun _ => recordsAllowed_ok rfl
  rw [upsertCredential]
  split
  · trivial
  split
  · trivial
  · exact ⟨hcluster, fun _ _ => trivial⟩

omit henabled in
theorem safe_createMetadataTopics (h : ¬ CreatesTopics header.apiVersion request) :
    Safe (mediation permit required) (createMetadataTopics header request) fun _ => True := by
  rw [createMetadataTopics]
  split
  · rename_i hallow
    split
    · rename_i requested hrequested
      split
      · rename_i hne
        refine absurd ⟨hallow, ?_, ?_⟩ h
        · rw [hrequested]
          exact fun hnil => hne (some.inj hnil)
        · rw [hrequested]
          exact fun hnone => absurd hnone (some_ne_none _)
      · trivial
    · rename_i hnone
      split
      · rename_i hversion
        refine absurd ⟨hallow, ?_, fun _ => hversion⟩ h
        rw [hnone]
        exact (some_ne_none _).symm
      · trivial
  · trivial

omit henabled in
theorem safe_createRequested (h : ¬ CreatesTopics header.apiVersion request) :
    Safe (mediation permit required) (createRequested request) fun _ => True := by
  rw [createRequested]
  split
  · rename_i hallow
    cases hrequested : request.topics with
    | none => trivial
    | some requested =>
    refine safe_autoCreateWithAssignments fun topic htopic => ?_
    refine absurd ⟨hallow, ?_, ?_⟩ h
    · rw [hrequested]
      exact fun hnil => ne_nil_of_mem htopic (some.inj hnil)
    · rw [hrequested]
      exact fun hnone => absurd hnone (some_ne_none _)
  · trivial

theorem safe_handleMetadataFiltered
    (h : ∀ x ∈ parseMetadata header.apiVersion body, ¬ CreatesTopics header.apiVersion x.1)
    (hauthorized : authorized = none → enabled = false) :
    Serves permit (.topic .describe) (handleMetadataFiltered header body authorized) := by
  rw [handleMetadataFiltered]
  split
  · exact recordsAllowed_error _
  rename_i request rest hparse
  refine safe_bind.2 ((safe_createRequested (h _ hparse)).mono fun created _ => ?_)
  split
  · exact recordsAllowed_error _
  refine safe_bind.2 ((safe_read _).2 fun topics => ?_)
  dsimp only
  split
  · exact recordsAllowed_ok rfl
  -- the default topic is created only while ACLs are off
  split
  · refine safe_bind.2 ((safe_autoCreateWithAssignments fun topic _ => ?_).mono fun _ _ => ?_)
    · exact ⟨_, rfl, henabled (hauthorized rfl) _⟩
    · exact fun _ => recordsAllowed_ok rfl
  · exact recordsAllowed_ok rfl

theorem safe_handleMetadataRequest
    (hrouter : ∀ x ∈ routerMetadata header.apiVersion body, ¬ CreatesTopics header.apiVersion x.1)
    (hparse : ∀ x ∈ parseMetadata header.apiVersion body, ¬ CreatesTopics header.apiVersion x.1) :
    Serves permit (.topic .describe) (handleMetadataRequest enabled header body) := by
  rw [handleMetadataRequest]
  split
  · exact recordsAllowed_error _
  rename_i request rest hrequest
  refine safe_bind.2 ((safe_createMetadataTopics (hrouter _ hrequest)).mono fun _ _ => ?_)
  split
  · have hcandidates :
        Safe (mediation permit (.topic .describe)) (metadataCandidates request) fun _ => True := by
      rw [metadataCandidates]
      split
      · trivial
      · exact fun _ => trivial
    refine safe_bind.2 (hcandidates.mono fun candidates _ => ?_)
    refine safe_bind.2 ((safe_partitionTopics henabled).mono fun x _ => ?_)
    exact safe_handleMetadataFiltered henabled hparse fun hnone => absurd hnone (some_ne_none _)
  · rename_i hoff
    exact safe_handleMetadataFiltered henabled hparse fun _ => Bool.not_eq_true _ ▸ hoff

/-- Every handler that asks stays within the accesses of its API. -/
theorem safe_route (h : Mediated header body) :
    Serves permit (handlerAccess header.apiKey) (route codecs enabled header body requestBytes) := by
  obtain ⟨hmediated, hmetadata⟩ := h
  obtain ⟨apiKey, apiVersion, correlationId, clientId⟩ := header
  replace hmediated : apiKey ∉ unmediated := hmediated
  cases apiKey
  case metadata =>
    obtain ⟨hrouter, hparse⟩ := hmetadata rfl
    exact safe_handleMetadataRequest henabled hrouter hparse
  case produce => exact safe_handleProduceRequest henabled
  case fetch => exact safe_handleFetchRequest henabled
  case joinGroup => exact safe_handleGroupRequest henabled _
  case syncGroup => exact safe_handleGroupRequest henabled _
  case heartbeat => exact safe_handleGroupRequest henabled _
  case leaveGroup => exact safe_handleGroupRequest henabled _
  case offsetCommit => exact safe_handleOffsetCommitRequest henabled
  case offsetFetch => exact safe_handleOffsetFetchRequest henabled
  case describeGroups => exact safe_handleDescribeGroupsRequest henabled
  case createAcls => exact safe_handleCreateAclsRequest henabled
  case deleteAcls => exact safe_handleDeleteAclsRequest henabled
  case describeAcls => exact safe_handleDescribeAclsRequest henabled
  case describeUserScramCredentials => exact safe_handleDescribeUserScramCredentials henabled
  case alterUserScramCredentials => exact safe_handleAlterUserScramCredentials henabled
  -- what is left reads, or is unmediated
  all_goals first
    | exact fun o => recordsAllowed_reply (fun _ => rfl) o
    | exact absurd (by decide) hmediated

end asking

end handlers

/-! ## The request -/

section request
variable {σ V : Type} (c : Components σ V) (codecs : RequestCodecs) (a : Authorizer) (ctx : ConnectionContext)
  {requestBytes : List UInt8} (s : σ)

def requestAccess (requestBytes : List UInt8) : RequiredAccess :=
  ((parseRequestHeader requestBytes).map fun x => handlerAccess x.1.apiKey).getD .none

variable (h : ∀ x ∈ parseRequestHeader requestBytes, Mediated x.1 x.2)
include h

omit s in
theorem safe_handleRequestWithContext :
    Serves (a.authorize ctx) (requestAccess requestBytes)
      (handleRequestWithContext codecs a.acls.enabled ctx requestBytes) := by
  have hinfer :
      Safe (mediation (a.authorize ctx) (requestAccess requestBytes)) inferExpectedTopics fun _ => True := by
    refine safe_bind.2 ((safe_read _).2 fun expected => ?_)
    split
    · exact ⟨fun _ htouches => htouches.elim, fun _ _ => trivial⟩
    · trivial
  refine safe_bind.2 (hinfer.mono fun _ _ => ?_)
  split
  · exact recordsAllowed_error _
  rename_i header body hparse
  rw [requestAccess, hparse]
  dsimp only
  split
  · exact safe_route (fun h _ => if_pos h) (h _ hparse)
  · exact recordsAllowed_error _

/-- Only resources to which the access is allowed change, and only their records are returned. -/
theorem Components.handleRequest_spec :
    RecordsAllowed (a.authorize ctx) (requestAccess requestBytes)
      (c.handleRequest codecs a ctx requestBytes s).1 ∧
    ∀ resource, ¬ Allows (a.authorize ctx) (requestAccess requestBytes) resource →
      c.view (c.handleRequest codecs a ctx requestBytes s).2 resource = c.view s resource := by
  refine Safe.run (R := fun s t => ∀ resource, ¬ Allows (a.authorize ctx) (requestAccess requestBytes) resource →
    c.view t resource = c.view s resource) (safe_handleRequestWithContext codecs a ctx h) c.returns ?_ ?_ ?_ s
  · exact fun _ _ _ => rfl
  · exact fun hst htu resource hdenied => (htu resource hdenied).trans (hst resource hdenied)
  · intro e t hmay resource hdenied
    exact c.frame e t resource fun htouches => hdenied (hmay resource htouches)

end request

/-! ## Connections that are granted nothing -/

theorem AclStore.GrantsNothing.checkAuthorization_ne_allowed {acls : AclStore}
    (h : acls.GrantsNothing r.principal) (keys : List (ResourceType × String)) :
    acls.checkAuthorization keys r ≠ .allowed := by
  have hentries : ∀ key, checkEntries (acls.entries key) r ≠ some .allowed := by
    intro key hallowed
    obtain ⟨⟨b, hb, hallow, hmatch⟩, -⟩ := checkEntries_eq_allowed hallowed
    exact h b (mem_entries_iff.1 hb).1 hallow r rfl hmatch
  intro hallowed
  rw [checkAuthorization] at hallowed
  split at hallowed
  · rename_i result hresult
    exact hentries _ (hresult.trans (congrArg some hallowed))
  split at hallowed
  · rename_i result hresult
    obtain ⟨b, hb, -, -, -, hmatch, heq⟩ := checkAllPrefixed_eq_some hresult
    rw [hallowed] at heq
    by_cases hallow : b.permissionType = .allow
    · exact h b hb hallow r rfl hmatch
    · rw [if_neg hallow] at heq
      cases heq
  · cases hstar : checkEntries (acls.entries (r.resourceType, "*")) r with rw [hstar] at hallowed
    | none =>
      cases hallowed
    | some result =>
      exact hentries _ (hstar.trans (congrArg some hallowed))

theorem Unprivileged.authorize_eq_false {a : Authorizer} (h : Unprivileged a ctx)
    (r : Access) : a.authorize ctx r = false := by
  obtain ⟨name, hauth, hsuper, hgrants⟩ := h.principal
  have hprincipal : ctx.auth.principal.getD "User:ANONYMOUS" = "User:" ++ name := by
    rw [hauth]
    rfl
  rw [Authorizer.authorize, if_neg (by simp [h.enabled]), AclStore.authorize, if_neg (by simp [h.enabled]),
    hprincipal, if_neg hsuper]
  split
  · rename_i hallowed
    exact absurd hallowed (AclStore.GrantsNothing.checkAuthorization_ne_allowed hgrants a.keys)
  · rfl
  · exact h.denied

/-- A request whose handler asks changes a resource, or returns records of it, only if the access
assigned to its API is allowed there; so with nothing granted it does neither. -/
theorem request_mediated {σ V : Type} (c : Components σ V) (codecs : RequestCodecs) (a : Authorizer)
    (ctx : ConnectionContext) (requestBytes : List UInt8) (s : σ)
    (h : ∀ x ∈ parseRequestHeader requestBytes, Mediated x.1 x.2) :
    (Unprivileged a ctx →
      (∀ resource, c.view (c.handleRequest codecs a ctx requestBytes s).2 resource = c.view s resource) ∧
      recordTopics (c.handleRequest codecs a ctx requestBytes s).1 = []) ∧
    ∀ x ∈ parseRequestHeader requestBytes, x.1.apiKey ≠ .alterUserScramCredentials → ∀ resource,
      (c.view (c.handleRequest codecs a ctx requestBytes s).2 resource ≠ c.view s resource ∨
        ∃ name ∈ recordTopics (c.handleRequest codecs a ctx requestBytes s).1, resource = (.topic, name)) →
      Allows (a.authorize ctx) (requiredAccess x.1.apiKey.toI16) resource := by
  obtain ⟨hrecords, hviews⟩ := c.handleRequest_spec codecs a ctx s h
  refine ⟨fun hnothing => ?_, fun x hx hkey resource heffect => ?_⟩
  · have hdenied : ∀ required resource, ¬ Allows (a.authorize ctx) required resource := by
      rintro required resource ⟨r, -, hr⟩
      rw [hnothing.authorize_eq_false] at hr
      cases hr
    refine ⟨fun resource => hviews resource (hdenied _ _), ?_⟩
    exact eq_nil_iff_forall_not_mem.2 fun name hname => hdenied _ _ (hrecords name hname)
  · have haccess : requestAccess requestBytes = requiredAccess x.1.apiKey.toI16 := by
      rw [requestAccess, mem_def.1 hx, map_some, getD_some, handlerAccess, if_neg hkey]
    rw [← haccess]
    rcases heffect with hchanged | ⟨name, hname, rfl⟩
    · by_contra hdenied
      exact hchanged (hviews resource hdenied)
    · exact hrecords name hname

/-- A connection that has authenticated, to a broker with ACLs on, denial by default and no
bindings. -/
def mallory : ConnectionContext := ⟨.required, .authenticated "mallory", "10.0.0.9"⟩

def strictAcls : Authorizer := ⟨AclStore.withConfig true false [], []⟩

theorem unprivileged_mallory : Unprivileged strictAcls mallory where
  enabled := rfl
  denied := rfl
  principal := ⟨"mallory", rfl, not_mem_nil, forall_mem_nil _⟩

def ordersBroker : SmallBroker where
  names := ["orders"]
  partitions := update (fun _ => none) "orders" (some (.new 7 0))
  users := [("alice", 1)]

/-- No body that the handlers do not decode themselves is accepted. -/
def noCodecs : RequestCodecs where
  produce _ _ := none
  fetch _ _ := none
  group _ _ _ := none
  offsetCommit _ _ := none
  offsetFetch _ _ := none
  describeGroups _ _ := none
  createAcls _ _ := none
  deleteAcls _ _ := none
  describeAcls _ _ := none
  createTopics _ _ := none
  deleteTopics _ _ := none
  deleteGroups _ _ := none
  offsetDelete _ _ := none
  endTxn _ _ := none
  fromSaltedPassword _ := .error "not served"
  buildEndTxnMarker _ := []

def describeOrders : List UInt8 :=
  [0, 3, 0, 4, 0, 0, 0, 2, 255, 255, 0, 0, 0, 1, 0, 6, 111, 114, 100, 101, 114, 115, 0]

theorem request_mediated_describe_orders :
    (∀ x ∈ parseRequestHeader describeOrders, Mediated x.1 x.2) ∧ Unprivileged strictAcls mallory ∧
    (∀ resource,
      (components.handleRequest noCodecs strictAcls mallory describeOrders ordersBroker).2.view
        resource = ordersBroker.view resource) ∧
    recordTopics
      (components.handleRequest noCodecs strictAcls mallory describeOrders ordersBroker).1 = [] := by
  have h : ∀ x ∈ parseRequestHeader describeOrders, Mediated x.1 x.2 := by decide +kernel
  exact ⟨h, unprivileged_mallory,
    (request_mediated components noCodecs strictAcls mallory describeOrders ordersBroker h).1
      unprivileged_mallory⟩

/-! ## Requests whose handlers do not ask -/

section unmediated

theorem askFree_handleDeleteRecordsRequest : AskFree (handleDeleteRecordsRequest body) := by
  rw [handleDeleteRecordsRequest]
  split
  · trivial
  refine (mapM fun topic => ?_).bind fun _ => trivial
  refine fun topicExists => (mapM fun p => ?_).bind fun _ => trivial
  rw [deletePartitionRecords]
  split
  · trivial
  · rintro (code | lowWatermark) <;> trivial

theorem askFree_handleDeleteTopicsRequest :
    AskFree (handleDeleteTopicsRequest codecs header body requestBytes) := by
  refine (askFree_act _).bind ?_
  rintro (message | bytes)
  · trivial
  · exact bind (forM fun _ => askFree_act _) fun _ => trivial

theorem askFree_handleDeleteGroupsRequest : AskFree (handleDeleteGroupsRequest codecs header body) := by
  rw [handleDeleteGroupsRequest]
  split
  · trivial
  refine (mapM fun groupId => ?_).bind fun _ => trivial
  refine (askFree_read _).bind ?_
  rintro (_ | _ | _)
  · trivial
  · exact (askFree_act _).bind fun _ => (askFree_act _).bind fun _ => trivial
  · trivial

theorem askFree_handleOffsetDeleteRequest : AskFree (handleOffsetDeleteRequest codecs header body) := by
  have hdelete : ∀ groupId partitions, AskFree (deleteOffsets groupId partitions) := by
    intro groupId partitions
    rw [deleteOffsets]
    split
    · exact askFree_act _
    · trivial
  rw [handleOffsetDeleteRequest]
  split
  · trivial
  · refine (askFree_read _).bind fun status => ?_
    exact (hdelete _ _).bind fun _ => trivial

theorem askFree_writeMarkers (request : Metadata.EndTxnRequest) (partitions : List (String × Nat)) :
    AskFree (writeMarkers codecs header request partitions) := by
  rw [writeMarkers]
  split <;> split
  · exact (askFree_act _).bind fun _ => (askFree_act _).bind fun _ => trivial
  · exact (askFree_act _).bind fun _ => trivial
  · exact (askFree_act _).bind fun _ => trivial
  · trivial

theorem askFree_endTransaction (request : Metadata.EndTxnRequest) (txn : BoundTransaction) :
    AskFree (endTransaction codecs header request txn) := by
  rw [endTransaction]
  split
  · trivial
  · refine (askFree_writeMarkers _ _).bind fun _ => (askFree_act _).bind ?_
    rintro (message | _) <;> trivial

theorem askFree_handleEndTxnRequest : AskFree (handleEndTxnRequest codecs header body) := by
  rw [handleEndTxnRequest]
  split
  · trivial
  refine (askFree_read _).bind ?_
  rintro (message | _ | txn)
  · trivial
  · trivial
  · exact bind (askFree_endTransaction _ _) fun _ => trivial

theorem askFree_handleCreateTopicsRequest :
    AskFree (handleCreateTopicsRequest codecs header body requestBytes) := by
  have hforward : AskFree (forwardCreateTopics requestBytes) := by
    refine (askFree_read _).bind ?_
    rintro (_ | _ | _ | leaderId)
    · trivial
    · trivial
    · trivial
    · refine (askFree_act _).bind ?_
      rintro (message | bytes) <;> trivial
  have hinitialize : AskFree (initializePartitions codecs header body) := by
    refine (askFree_read _).bind fun role => ?_
    split
    · refine forM fun topic => ?_
      split
      · exact askFree_act _
      · trivial
    · trivial
  refine hforward.bind ?_
  rintro (_ | result)
  · refine (askFree_act _).bind ?_
    rintro (message | bytes)
    · trivial
    · exact hinitialize.bind fun _ => trivial
  · trivial

theorem askFree_route (enabled : Bool) (h : header.apiKey ∈ unmediated) :
    AskFree (route codecs enabled header body requestBytes) := by
  obtain ⟨apiKey, apiVersion, correlationId, clientId⟩ := header
  replace h : apiKey ∈ unmediated := h
  cases apiKey
  case createTopics => exact askFree_handleCreateTopicsRequest
  case deleteTopics => exact askFree_handleDeleteTopicsRequest
  case deleteRecords => exact askFree_handleDeleteRecordsRequest
  case deleteGroups => exact askFree_handleDeleteGroupsRequest
  case offsetDelete => exact askFree_handleOffsetDeleteRequest
  case endTxn => exact askFree_handleEndTxnRequest
  all_goals first
    | exact absurd h (by decide)
    | exact (askFree_act _).bind fun _ => trivial

theorem route_eq_of_unmediated (enabled enabled' : Bool) (h : header.apiKey ∈ unmediated) :
    route codecs enabled header body requestBytes = route codecs enabled' header body requestBytes := by
  obtain ⟨apiKey, apiVersion, correlationId, clientId⟩ := header
  replace h : apiKey ∈ unmediated := h
  cases apiKey
  all_goals first
    | exact absurd h (by decide)
    | rfl

/-- Once the gate is passed, a request of an unmediated API runs the same for every connection,
whatever the ACLs are. -/
theorem unmediated_ignores_acls (c : Components σ V) (a a' : Authorizer)
    (ctx ctx' : ConnectionContext) (s : σ)
    (hparse : parseRequestHeader requestBytes = some (header, body)) (h : header.apiKey ∈ unmediated)
    (hctx : ctx.checkRequestAllowed header.apiKey.toI16 = true)
    (hctx' : ctx'.checkRequestAllowed header.apiKey.toI16 = true) :
    c.handleRequest codecs a ctx requestBytes s = c.handleRequest codecs a' ctx' requestBytes s := by
  have hinfer : AskFree inferExpectedTopics := by
    refine (askFree_read _).bind fun expected => ?_
    split
    · exact askFree_act _
    · trivial
  have hask :
      AskFree (inferExpectedTopics >>= fun _ => route codecs a.acls.enabled header body requestBytes) :=
    hinfer.bind fun _ => askFree_route _ h
  rw [Components.handleRequest, Components.handleRequest, handleRequestWithContext, handleRequestWithContext,
    hparse]
  simp only [hctx, hctx', if_true, route_eq_of_unmediated a'.acls.enabled a.acls.enabled h]
  exact hask.run_eq _ _ _ _

end unmediated

/-- DeleteRecords v0 of `orders` up to the high watermark. -/
def clearOrders : List UInt8 :=
  [0, 21, 0, 0, 0, 0, 0, 3, 255, 255, 0, 0, 0, 1, 0, 6, 111, 114, 100, 101, 114, 115, 0, 0, 0, 1, 0, 0, 0, 0,
    255, 255, 255, 255, 255, 255, 255, 255, 0, 0, 3, 232]

def describeNew : List UInt8 :=
  [0, 3, 0, 1, 0, 0, 0, 2, 255, 255, 0, 0, 0, 1, 0, 3, 110, 101, 119]

/-- AlterUserScramCredentials v0: delete the credential of `alice`. -/
def deleteAlice : List UInt8 :=
  [0, 51, 0, 0, 0, 0, 0, 4, 0, 1, 99, 0, 2, 6, 97, 108, 105, 99, 101, 1, 0, 1, 0]

/-- Alter on the cluster is granted to `mallory`. -/
def alterAcls : Authorizer :=
  ⟨AclStore.ofBindings false [] [⟨.cluster, "kafka-cluster", .literal, "User:mallory", "*", .alter, .allow⟩],
    [clusterResource]⟩

/-- With nothing granted, records of a topic are deleted and a topic is created; with Alter on the
cluster, a credential is deleted, for which ClusterAction is assigned. -/
theorem unauthorized_request_takes_effect :
    Unprivileged strictAcls mallory ∧
    (ordersBroker.view (.topic, "orders")).1 = some (.new 7 0) ∧
    ((components.handleRequest noCodecs strictAcls mallory clearOrders ordersBroker).2.view
      (.topic, "orders")).1 = some ⟨7, 7, 7⟩ ∧
    (ordersBroker.view (.topic, "new")).1 = none ∧
    ((components.handleRequest noCodecs strictAcls mallory describeNew ordersBroker).2.view
      (.topic, "new")).1 = some (.new 0 0) ∧
    ¬ Allows (alterAcls.authorize mallory) (requiredAccess 51) clusterResource ∧
    (ordersBroker.view clusterResource).2 = [("alice", 1)] ∧
    ((components.handleRequest noCodecs alterAcls mallory deleteAlice ordersBroker).2.view
      clusterResource).2 = [] := by
  refine ⟨unprivileged_mallory, by decide +kernel, by decide +kernel, by decide +kernel, by decide +kernel, ?_,
    by decide +kernel, by decide +kernel⟩
  rintro ⟨r, hr, hallowed⟩
  cases hr
  exact absurd hallowed (by decide +kernel)

theorem unmediated_ignores_acls_clearOrders :
    components.handleRequest noCodecs strictAcls mallory clearOrders ordersBroker =
      components.handleRequest noCodecs alterAcls mallory clearOrders ordersBroker := by
  have hparse : parseRequestHeader clearOrders =
      some (⟨.deleteRecords, 0, 3, none⟩, clearOrders.drop 10) := by decide +kernel
  exact unmediated_ignores_acls _ _ _ _ _ _ hparse (by decide) rfl rfl

end ChronikStream
