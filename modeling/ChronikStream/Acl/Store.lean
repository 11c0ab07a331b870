import Mathlib.Data.List.Infix

/-!
# The ACL store

`authorize` returns at the first of three stages that has an answer: the bindings under the name of
the resource, the prefixed bindings, the bindings under `*`. In the second the first binding that
matches decides, in the order of an iteration over the map, which is an argument.
-/

namespace ChronikStream

open Function

inductive ResourceType where
  | unknown | any | topic | group | cluster | transactionalId | delegationToken
  deriving DecidableEq

inductive PatternType where
  | unknown | any | match_ | literal | prefixed
  deriving DecidableEq

inductive AclOperation where
  | unknown | any | all | read | write | create | delete | alter | describe | clusterAction
  | describeConfigs | alterConfigs | idempotentWrite
  deriving DecidableEq

inductive AclPermissionType where
  | unknown | any | deny | allow
  deriving DecidableEq

structure AclBinding where
  resourceType : ResourceType
  resourceName : String
  patternType : PatternType
  principal : String
  host : String
  operation : AclOperation
  permissionType : AclPermissionType
  deriving DecidableEq

def AclBinding.key (b : AclBinding) : ResourceType × String := (b.resourceType, b.resourceName)

inductive AuthorizationResult where
  | allowed | denied | noMatchingAcl
  deriving DecidableEq

structure AccessRequest where
  principal : String
  host : String
  resourceType : ResourceType
  resourceName : String
  operation : AclOperation

def implies (granted requested : AclOperation) : Prop :=
  match requested with
  | .describe => granted ∈ [.read, .write, .delete, .alter]
  | .describeConfigs => granted = .alterConfigs
  | _ => False

instance (granted requested : AclOperation) : Decidable (implies granted requested) := by
  unfold implies
  split <;> infer_instance

/-- The principal, the host and the operation match. -/
def AclBinding.EntryMatches (entry : AclBinding) (r : AccessRequest) : Prop :=
  (entry.principal = "*" ∨ entry.principal = r.principal ∨ entry.principal = "User:*") ∧
  (entry.host = "*" ∨ entry.host = r.host) ∧
  (entry.operation = .all ∨ entry.operation = .any ∨ entry.operation = r.operation ∨
    implies entry.operation r.operation)
deriving Decidable

/-- An explicit Deny first, then an Allow. -/
def checkEntries (entries : List AclBinding) (r : AccessRequest) : Option AuthorizationResult :=
  if ∃ e ∈ entries, e.permissionType = .deny ∧ e.EntryMatches r then some .denied
  else if ∃ e ∈ entries, e.permissionType = .allow ∧ e.EntryMatches r then some .allowed
  else none

/-- `starts_with`, of the name of the resource. -/
def PrefixOf (name : String) (r : AccessRequest) : Prop := name.toList <+: r.resourceName.toList
deriving Decidable

/-- The first of the entries under `name` that is prefixed and matches; what is not an Allow denies. -/
def checkPrefixed (name : String) (entries : List AclBinding) (r : AccessRequest) :
    Option AuthorizationResult :=
  entries.findSome? fun entry =>
    if entry.patternType = .prefixed ∧ PrefixOf name r ∧ entry.EntryMatches r then
      some (if entry.permissionType = .allow then .allowed else .denied)
    else none

inductive AclError where
  | duplicateAcl

structure AclStore where
  acls : ResourceType × String → Option (List AclBinding)
  enabled : Bool
  allowIfNoAcl : Bool
  superUsers : List String
  keyed : ∀ key, ∀ b ∈ (acls key).getD [], b.key = key

namespace AclStore

def withConfig (enabled allowIfNoAcl : Bool) (superUsers : List String) : AclStore :=
  ⟨fun _ => none, enabled, allowIfNoAcl, superUsers, fun _ _ h => absurd h List.not_mem_nil⟩

def entries (s : AclStore) (key : ResourceType × String) : List AclBinding := (s.acls key).getD []

def Holds (s : AclStore) (b : AclBinding) : Prop := b ∈ s.entries b.key
deriving Decidable

theorem keyed_push (s : AclStore) (b : AclBinding) (key : ResourceType × String) :
    ∀ e ∈ (update s.acls b.key (some (s.entries b.key ++ [b])) key).getD [], e.key = key := by
  intro e he
  by_cases hkey : key = b.key
  · subst hkey
    rw [update_self, Option.getD_some, List.mem_append, List.mem_singleton] at he
    rcases he with he | rfl
    · exact s.keyed _ e he
    · rfl
  · rw [update_of_ne hkey] at he
    exact s.keyed key e he

/-- A binding that is there already is an error; with authorization switched off nothing is stored. -/
def createAcl (s : AclStore) (b : AclBinding) : Except AclError AclStore :=
  if s.enabled = false then .ok s
  else if s.Holds b then .error .duplicateAcl
  else .ok { s with
    acls := update s.acls b.key (some (s.entries b.key ++ [b]))
    keyed := s.keyed_push b }

/-- Bindings are created one after the other; an error changes nothing. -/
def createAll (s : AclStore) (bs : List AclBinding) : AclStore :=
  bs.foldl (fun s b => (s.createAcl b).toOption.getD s) s

/-- The second stage: the map is gone through in the order of `keys`. -/
def checkAllPrefixed (s : AclStore) (keys : List (ResourceType × String)) (r : AccessRequest) :
    Option AuthorizationResult :=
  keys.findSome? fun key =>
    if key.1 = r.resourceType then checkPrefixed key.2 (s.entries key) r else none

def checkAuthorization (s : AclStore) (keys : List (ResourceType × String)) (r : AccessRequest) :
    AuthorizationResult :=
  match checkEntries (s.entries (r.resourceType, r.resourceName)) r with
  | some result => result
  | none =>
    match s.checkAllPrefixed keys r with
    | some result => result
    | none => (checkEntries (s.entries (r.resourceType, "*")) r).getD .noMatchingAcl

def authorize (s : AclStore) (keys : List (ResourceType × String)) (r : AccessRequest) : Bool :=
  if s.enabled = false then true
  else if r.principal ∈ s.superUsers then true
  else
    match s.checkAuthorization keys r with
    | .allowed => true
    | .denied => false
    | .noMatchingAcl => s.allowIfNoAcl

/-! ## What a store holds -/

variable {s : AclStore} {b b' : AclBinding} {bs : List AclBinding} {key : ResourceType × String}

theorem mem_entries_iff : b ∈ s.entries key ↔ s.Holds b ∧ b.key = key := by
  constructor
  · intro h
    obtain rfl := s.keyed key b h
    exact ⟨h, rfl⟩
  · rintro ⟨h, rfl⟩
    exact h

theorem createAcl_of_mem (henabled : s.enabled = true) (h : s.Holds b) :
    (s.createAcl b).toOption.getD s = s := by
  rw [createAcl, if_neg (by simp [henabled]), if_pos h]
  rfl

theorem createAcl_of_notMem (henabled : s.enabled = true) (h : ¬ s.Holds b) :
    (s.createAcl b).toOption.getD s = { s with
      acls := update s.acls b.key (some (s.entries b.key ++ [b]))
      keyed := s.keyed_push b } := by
  rw [createAcl, if_neg (by simp [henabled]), if_neg h]
  rfl

theorem createAll_config (s : AclStore) (bs : List AclBinding) :
    (s.createAll bs).enabled = s.enabled ∧ (s.createAll bs).allowIfNoAcl = s.allowIfNoAcl ∧
      (s.createAll bs).superUsers = s.superUsers := by
  induction bs generalizing s with
  | nil => exact ⟨rfl, rfl, rfl⟩
  | cons b bs ih =>
    have hcreate : (((s.createAcl b).toOption.getD s)).enabled = s.enabled ∧
        ((s.createAcl b).toOption.getD s).allowIfNoAcl = s.allowIfNoAcl ∧
        ((s.createAcl b).toOption.getD s).superUsers = s.superUsers := by
      rw [createAcl]
      split
      · exact ⟨rfl, rfl, rfl⟩
      · split <;> exact ⟨rfl, rfl, rfl⟩
    obtain ⟨h1, h2, h3⟩ := ih ((s.createAcl b).toOption.getD s)
    exact ⟨h1.trans hcreate.1, h2.trans hcreate.2.1, h3.trans hcreate.2.2⟩

section
variable (henabled : s.enabled = true)
include henabled

theorem entries_createAcl :
    ((s.createAcl b).toOption.getD s).entries key =
      if key = b.key ∧ ¬ s.Holds b then s.entries key ++ [b] else s.entries key := by
  by_cases hmem : s.Holds b
  · rw [createAcl_of_mem henabled hmem, if_neg (fun h => h.2 hmem)]
  rw [createAcl_of_notMem henabled hmem, entries]
  by_cases hkey : key = b.key
  · subst hkey
    simp [hmem]
  · simp [hkey, entries]

theorem holds_createAcl : ((s.createAcl b').toOption.getD s).Holds b ↔ s.Holds b ∨ b = b' := by
  rw [Holds, entries_createAcl henabled]
  by_cases hmem : s.Holds b'
  · simp only [hmem, not_true_eq_false, and_false, ↓reduceIte]
    refine ⟨.inl, ?_⟩
    rintro (h | rfl)
    · exact h
    · exact hmem
  · split
    case isTrue => simp [Holds]
    case isFalse hkey =>
    refine ⟨.inl, ?_⟩
    rintro (h | rfl)
    · exact h
    · exact absurd ⟨rfl, hmem⟩ hkey

theorem createAcl_enabled : ((s.createAcl b).toOption.getD s).enabled = true :=
  (createAll_config s [b]).1.trans henabled

/-- After a sequence of creations the store holds the bindings it held and those of the sequence. -/
theorem holds_createAll : (s.createAll bs).Holds b ↔ s.Holds b ∨ b ∈ bs := by
  induction bs generalizing s with
  | nil => simp [createAll]
  | cons b' bs ih =>
    refine (ih (createAcl_enabled henabled)).trans ?_
    rw [holds_createAcl henabled, List.mem_cons, or_assoc]

theorem isSome_createAcl :
    (((s.createAcl b).toOption.getD s).acls key).isSome ↔ (s.acls key).isSome ∨ b.key = key := by
  by_cases hmem : s.Holds b
  · rw [createAcl_of_mem henabled hmem]
    refine ⟨.inl, ?_⟩
    rintro (h | rfl)
    · exact h
    · rw [Option.isSome_iff_ne_none]
      intro hnone
      rw [Holds, entries, hnone] at hmem
      exact absurd hmem List.not_mem_nil
  · rw [createAcl_of_notMem henabled hmem]
    by_cases hkey : key = b.key
    · subst hkey
      simp
    · simp [hkey, Ne.symm hkey]

theorem isSome_createAll :
    ((s.createAll bs).acls key).isSome ↔ (s.acls key).isSome ∨ ∃ b ∈ bs, b.key = key := by
  induction bs generalizing s with
  | nil => simp [createAll]
  | cons b bs ih =>
    refine (ih (createAcl_enabled henabled)).trans ?_
    rw [isSome_createAcl henabled, or_assoc]
    simp

theorem entries_prefix_createAll (bs : List AclBinding)
    (key : ResourceType × String) : s.entries key <+: (s.createAll bs).entries key := by
  induction bs generalizing s with
  | nil => exact List.prefix_rfl
  | cons b bs ih =>
    refine List.IsPrefix.trans ?_ (ih (createAcl_enabled henabled))
    rw [entries_createAcl henabled]
    split
    · exact List.prefix_append _ _
    · exact List.prefix_rfl

end

end AclStore

end ChronikStream
