import ChronikStream.Acl.Store
import ChronikStream.Metadata.AntiEntropy

/-!
# Deny against Allow

The order-free rule (`Permits`): a Deny that applies refuses, otherwise an Allow that applies
grants, otherwise the default decides. `authorize` returns at its first stage with an answer, so an
Allow there hides a Deny of a later one; `authorize_iff_permits` says that the two agree exactly
when `DenyFirst` holds. A prefixed binding on the name `*` that matches the request is left out: the
last stage takes it for a wildcard.
-/

namespace ChronikStream

open List Option

open Metadata (Lists)

variable {r : AccessRequest}

/-! ## The rule -/

section
variable (b : AclBinding) (r : AccessRequest)

/-- A binding on the literal name, on `*` or on a prefix. -/
def AclBinding.NameApplies : Prop :=
  match b.patternType with
  | .literal => b.resourceName = r.resourceName ∨ b.resourceName = "*"
  | .prefixed => PrefixOf b.resourceName r
  | _ => False

instance : Decidable (b.NameApplies r) := by
  unfold AclBinding.NameApplies
  split <;> infer_instance

def AclBinding.Applies : Prop :=
  b.resourceType = r.resourceType ∧ b.NameApplies r ∧ b.EntryMatches r
deriving Decidable

/-- No Deny applies, and an Allow does or the default allows what no binding applies to. -/
def Permits (bs : List AclBinding) (allowIfNoAcl : Bool) (r : AccessRequest) : Prop :=
  (∀ d ∈ bs, d.permissionType = .deny → ¬ d.Applies r) ∧
  ((∃ a ∈ bs, a.permissionType = .allow ∧ a.Applies r) ∨
    ((∀ b ∈ bs, ¬ b.Applies r) ∧ allowIfNoAcl = true))
deriving Decidable

/-- Literal, prefixed and wildcard bindings, allow and deny. -/
structure AclBinding.WellFormed : Prop where
  pattern : b.patternType = .literal ∨ b.patternType = .prefixed
  permission : b.permissionType = .allow ∨ b.permissionType = .deny
  star : b.patternType = .prefixed → b.resourceName = "*" → b.resourceType = r.resourceType →
    b.EntryMatches r → PrefixOf "*" r

instance : Decidable (b.WellFormed r) :=
  decidable_of_iff (_ ∧ _ ∧ _)
    ⟨fun h => ⟨h.1, h.2.1, h.2.2⟩, fun h => ⟨h.pattern, h.permission, h.star⟩⟩

end

/-- If a Deny applies, then one on the very name of the resource does, or every Allow that applies
is on `*`. -/
def DenyFirst (bs : List AclBinding) (r : AccessRequest) : Prop :=
  ∀ d ∈ bs, d.permissionType = .deny → d.Applies r →
    (∃ d' ∈ bs, d'.permissionType = .deny ∧ d'.Applies r ∧ d'.resourceName = r.resourceName) ∨
    ∀ a ∈ bs, a.permissionType = .allow → a.Applies r →
      a.resourceName ≠ r.resourceName ∧ a.patternType ≠ .prefixed
deriving Decidable

namespace AclBinding.WellFormed

variable {b : AclBinding}

theorem applies_iff (h : b.WellFormed r) : b.Applies r ↔
    b.resourceType = r.resourceType ∧ b.EntryMatches r ∧ (b.resourceName = r.resourceName ∨
      (b.patternType = .prefixed ∧ PrefixOf b.resourceName r) ∨ b.resourceName = "*") := by
  rw [AclBinding.Applies, and_comm (a := b.NameApplies r)]
  refine and_congr_right fun htype => and_congr_right fun hmatch => ?_
  rcases h.pattern with hpat | hpat
  · simp [AclBinding.NameApplies, hpat]
  simp only [AclBinding.NameApplies, hpat, true_and]
  refine ⟨.inr ∘ .inl, ?_⟩
  rintro (heq | hpre | hstar)
  · rw [PrefixOf, heq]
  · exact hpre
  · rw [hstar]
    exact h.star hpat hstar htype hmatch

end AclBinding.WellFormed

/-! ## The stages -/

section stages

theorem checkEntries_ne_noMatchingAcl : checkEntries entries r ≠ some .noMatchingAcl := by
  rw [checkEntries]
  split
  · simp
  · split <;> simp

theorem checkEntries_eq_denied (h : checkEntries entries r = some .denied) :
    ∃ d ∈ entries, d.permissionType = .deny ∧ d.EntryMatches r := by
  rw [checkEntries] at h
  split at h
  · assumption
  · split at h <;> cases h

theorem checkEntries_eq_allowed (h : checkEntries entries r = some .allowed) :
    (∃ a ∈ entries, a.permissionType = .allow ∧ a.EntryMatches r) ∧
      ∀ d ∈ entries, d.permissionType = .deny → ¬ d.EntryMatches r := by
  rw [checkEntries] at h
  split at h
  · cases h
  rename_i hdeny
  split at h
  · rename_i hallow
    exact ⟨hallow, fun d hd hperm hmatch => hdeny ⟨d, hd, hperm, hmatch⟩⟩
  · cases h

theorem checkEntries_eq_none (hwf : ∀ e ∈ entries, e.WellFormed r) (h : checkEntries entries r = none) :
    ∀ e ∈ entries, ¬ e.EntryMatches r := by
  rw [checkEntries] at h
  split at h
  · cases h
  rename_i hdeny
  split at h
  · cases h
  rename_i hallow
  intro e he hmatch
  rcases (hwf e he).permission with hperm | hperm
  · exact hallow ⟨e, he, hperm, hmatch⟩
  · exact hdeny ⟨e, he, hperm, hmatch⟩

end stages

namespace AclStore

variable {s : AclStore} {keys : List (ResourceType × String)} {result : AuthorizationResult}

theorem checkAllPrefixed_eq_some (h : s.checkAllPrefixed keys r = some result) :
    ∃ b, s.Holds b ∧ b.resourceType = r.resourceType ∧ b.patternType = .prefixed ∧
      PrefixOf b.resourceName r ∧ b.EntryMatches r ∧
      result = if b.permissionType = .allow then .allowed else .denied := by
  obtain ⟨key, -, hkey⟩ := exists_of_findSome?_eq_some h
  obtain ⟨htype, hkey⟩ := ite_none_right_eq_some.1 hkey
  obtain ⟨b, hb, hfound⟩ := exists_of_findSome?_eq_some hkey
  obtain ⟨⟨hpat, hpre, hmatch⟩, hresult⟩ := ite_none_right_eq_some.1 hfound
  obtain ⟨hholds, rfl⟩ := mem_entries_iff.1 hb
  exact ⟨b, hholds, htype, hpat, hpre, hmatch, (some.inj hresult).symm⟩

theorem checkAllPrefixed_eq_none (hkeys : Lists keys s.acls) (h : s.checkAllPrefixed keys r = none)
    (hb : s.Holds b) (htype : b.resourceType = r.resourceType)
    (hpat : b.patternType = .prefixed) (hpre : PrefixOf b.resourceName r) : ¬ b.EntryMatches r := by
  intro hmatch
  have hkey : b.key ∈ keys := by
    rw [hkeys.mem_iff, isSome_iff_ne_none]
    intro hnone
    rw [Holds, entries, hnone] at hb
    exact not_mem_nil hb
  have hstage := findSome?_eq_none_iff.1 h b.key hkey
  rw [if_pos (show b.key.1 = _ from htype)] at hstage
  have hfound := findSome?_eq_none_iff.1 hstage b hb
  rw [if_pos ⟨hpat, hpre, hmatch⟩] at hfound
  cases hfound

theorem applies_of_mem_entries (hwf : ∀ b, s.Holds b → b.WellFormed r)
    (hname : name = r.resourceName ∨ name = "*") (hb : b ∈ s.entries (r.resourceType, name))
    (hmatch : b.EntryMatches r) : b.Applies r := by
  obtain ⟨hholds, hkey⟩ := mem_entries_iff.1 hb
  obtain ⟨htype, rfl⟩ := Prod.mk.inj hkey
  exact (hwf b hholds).applies_iff.2 ⟨htype, hmatch, hname.imp_right .inr⟩

theorem mem_entries_of_name (hb : s.Holds b) (happ : b.Applies r)
    (hname : b.resourceName = name) : b ∈ s.entries (r.resourceType, name) :=
  mem_entries_iff.2 ⟨hb, Prod.ext happ.1 hname⟩

/-! ## What a decision says about the bindings -/

section decisions
variable (hwf : ∀ b, s.Holds b → b.WellFormed r)
include hwf

theorem wellFormed_entries : ∀ e ∈ s.entries (r.resourceType, name), e.WellFormed r :=
  fun e he => hwf e (mem_entries_iff.1 he).1

/-- An Allow applies and no Deny on the name itself; where any Deny applies, the Allow is on the
name or a prefix. -/
theorem checkAuthorization_eq_allowed (hkeys : Lists keys s.acls)
    (h : s.checkAuthorization keys r = .allowed) :
    ∃ a, s.Holds a ∧ a.permissionType = .allow ∧ a.Applies r ∧
      ∀ d, s.Holds d → d.permissionType = .deny → d.Applies r →
        d.resourceName ≠ r.resourceName ∧
          (a.resourceName = r.resourceName ∨ a.patternType = .prefixed) := by
  rw [checkAuthorization] at h
  split at h
  case h_1 result hexact =>
    subst h
    obtain ⟨⟨a, ha, hperm, hmatch⟩, hdeny⟩ := checkEntries_eq_allowed hexact
    refine ⟨a, (mem_entries_iff.1 ha).1, hperm, applies_of_mem_entries hwf (.inl rfl) ha hmatch, ?_⟩
    intro d hd hdperm happ
    refine ⟨fun hname => ?_, .inl (congrArg Prod.snd (mem_entries_iff.1 ha).2)⟩
    exact hdeny d (mem_entries_of_name hd happ hname) hdperm happ.2.2
  case h_2 hexact =>
    have hnotExact : ∀ d, s.Holds d → d.Applies r → d.resourceName ≠ r.resourceName := by
      intro d hd happ hname
      exact checkEntries_eq_none (wellFormed_entries hwf) hexact d (mem_entries_of_name hd happ hname)
        happ.2.2
    split at h
    case h_1 result hpre =>
      obtain ⟨a, ha, htype, hpat, hprefixOf, hmatch, hresult⟩ := checkAllPrefixed_eq_some hpre
      subst h
      have hperm : a.permissionType = .allow := by
        by_contra hne
        rw [if_neg hne] at hresult
        cases hresult
      have happ : a.Applies r :=
        (hwf a ha).applies_iff.2 ⟨htype, hmatch, .inr (.inl ⟨hpat, hprefixOf⟩)⟩
      refine ⟨a, ha, hperm, happ, ?_⟩
      intro d hd _ happ
      exact ⟨hnotExact d hd happ, .inr hpat⟩
    case h_2 hpre =>
      have hstar : checkEntries (s.entries (r.resourceType, "*")) r = some .allowed := by
        cases hstage : checkEntries (s.entries (r.resourceType, "*")) r with
        | none => simp [hstage] at h
        | some result =>
          rw [hstage, getD_some] at h
          rw [h]
      obtain ⟨⟨a, ha, hperm, hmatch⟩, hdeny⟩ := checkEntries_eq_allowed hstar
      refine ⟨a, (mem_entries_iff.1 ha).1, hperm, applies_of_mem_entries hwf (.inr rfl) ha hmatch, ?_⟩
      -- No Deny is left: each stage has been gone through.
      intro d hd hdperm happ
      rcases ((hwf d hd).applies_iff.1 happ).2.2 with hname | ⟨hpat, hprefixOf⟩ | hname
      · exact absurd hname (hnotExact d hd happ)
      · exact absurd happ.2.2 (checkAllPrefixed_eq_none hkeys hpre hd happ.1 hpat hprefixOf)
      · exact absurd happ.2.2 (hdeny d (mem_entries_of_name hd happ hname) hdperm)

theorem checkAuthorization_eq_denied (h : s.checkAuthorization keys r = .denied) :
    ∃ d, s.Holds d ∧ d.permissionType = .deny ∧ d.Applies r := by
  rw [checkAuthorization] at h
  split at h
  case h_1 result hexact =>
    subst h
    obtain ⟨d, hd, hperm, hmatch⟩ := checkEntries_eq_denied hexact
    exact ⟨d, (mem_entries_iff.1 hd).1, hperm, applies_of_mem_entries hwf (.inl rfl) hd hmatch⟩
  case h_2 =>
  split at h
  case h_1 result hpre =>
    subst h
    obtain ⟨d, hd, htype, hpat, hprefixOf, hmatch, hresult⟩ := checkAllPrefixed_eq_some hpre
    have hperm : d.permissionType ≠ .allow := by
      intro heq
      rw [if_pos heq] at hresult
      cases hresult
    exact ⟨d, hd, (hwf d hd).permission.resolve_left hperm,
      (hwf d hd).applies_iff.2 ⟨htype, hmatch, .inr (.inl ⟨hpat, hprefixOf⟩)⟩⟩
  case h_2 =>
    cases hstage : checkEntries (s.entries (r.resourceType, "*")) r with
    | none => simp [hstage] at h
    | some result =>
    rw [hstage] at h
    subst h
    obtain ⟨d, hd, hperm, hmatch⟩ := checkEntries_eq_denied hstage
    exact ⟨d, (mem_entries_iff.1 hd).1, hperm, applies_of_mem_entries hwf (.inr rfl) hd hmatch⟩

theorem checkAuthorization_eq_noMatchingAcl (hkeys : Lists keys s.acls)
    (h : s.checkAuthorization keys r = .noMatchingAcl) (hb : s.Holds b) : ¬ b.Applies r := by
  rw [checkAuthorization] at h
  split at h
  case h_1 result hexact =>
    subst h
    exact absurd hexact checkEntries_ne_noMatchingAcl
  case h_2 hexact =>
  split at h
  case h_1 result hpre =>
    obtain ⟨b, -, -, -, -, -, hresult⟩ := checkAllPrefixed_eq_some hpre
    rw [h] at hresult
    split at hresult <;> cases hresult
  case h_2 hpre =>
  have hstar : checkEntries (s.entries (r.resourceType, "*")) r = none := by
    cases hstage : checkEntries (s.entries (r.resourceType, "*")) r with
    | none => rfl
    | some result =>
    rw [hstage, getD_some] at h
    rw [h] at hstage
    exact absurd hstage checkEntries_ne_noMatchingAcl
  intro happ
  rcases ((hwf b hb).applies_iff.1 happ).2.2 with hname | ⟨hpat, hprefixOf⟩ | hname
  · exact checkEntries_eq_none (wellFormed_entries hwf) hexact b (mem_entries_of_name hb happ hname)
      happ.2.2
  · exact checkAllPrefixed_eq_none hkeys hpre hb happ.1 hpat hprefixOf happ.2.2
  · exact checkEntries_eq_none (wellFormed_entries hwf) hstar b (mem_entries_of_name hb happ hname)
      happ.2.2

end decisions

/-- Without a Deny on the name itself, an Allow on the name, or a prefixed Allow that stands first
in the map, decides. -/
theorem checkAuthorization_of_first (hperm : a.permissionType = .allow) (happ : a.Applies r)
    (hfirst : s.entries a.key = a :: later)
    (hlevel : a.resourceName = r.resourceName ∨ a.patternType = .prefixed)
    (hdeny : ∀ d, s.Holds d → d.permissionType = .deny → d.Applies r → d.resourceName ≠ r.resourceName)
    (hwf : ∀ b, s.Holds b → b.WellFormed r) (rest : List (ResourceType × String)) :
    s.checkAuthorization (a.key :: rest) r = .allowed := by
  have ha : s.Holds a := by
    rw [Holds, hfirst]
    exact mem_cons_self
  rw [checkAuthorization]
  split
  case h_1 result hexact =>
    cases result with
    | allowed => rfl
    | noMatchingAcl => exact absurd hexact checkEntries_ne_noMatchingAcl
    | denied =>
    obtain ⟨d, hd, hdperm, hmatch⟩ := checkEntries_eq_denied hexact
    obtain ⟨hholds, hkey⟩ := mem_entries_iff.1 hd
    exact absurd (congrArg Prod.snd hkey)
      (hdeny d hholds hdperm (applies_of_mem_entries hwf (.inl rfl) hd hmatch))
  case h_2 hexact =>
    have hname : a.resourceName ≠ r.resourceName := fun hname =>
      checkEntries_eq_none (wellFormed_entries hwf) hexact a (mem_entries_of_name ha happ hname) happ.2.2
    have hpat := hlevel.resolve_left hname
    have hprefixOf : PrefixOf a.resourceName r := by
      have hmatch := happ.2.1
      rwa [AclBinding.NameApplies, hpat] at hmatch
    have hstage : s.checkAllPrefixed (a.key :: rest) r = some .allowed := by
      rw [checkAllPrefixed, findSome?_cons, if_pos (show a.key.1 = _ from happ.1), checkPrefixed,
        hfirst, findSome?_cons, if_pos ⟨hpat, hprefixOf, happ.2.2⟩, if_pos hperm]
    rw [hstage]

/-- A store in which these bindings have been created, in this order. -/
def ofBindings (allowIfNoAcl : Bool) (superUsers : List String) (created : List AclBinding) : AclStore :=
  (withConfig true allowIfNoAcl superUsers).createAll created

section created
variable {allowIfNoAcl : Bool} {superUsers : List String} {created bs : List AclBinding} {b : AclBinding}

theorem holds_created : (ofBindings allowIfNoAcl superUsers created).Holds b ↔ b ∈ created := by
  rw [ofBindings, holds_createAll rfl]
  refine ⟨fun h => h.resolve_left not_mem_nil, .inr⟩

theorem authorize_eq (hsuper : r.principal ∉ superUsers) :
    (ofBindings allowIfNoAcl superUsers created).authorize keys r =
      match (ofBindings allowIfNoAcl superUsers created).checkAuthorization keys r with
      | .allowed => true
      | .denied => false
      | .noMatchingAcl => allowIfNoAcl := by
  obtain ⟨henabled, hdefault, husers⟩ :=
    createAll_config (withConfig true allowIfNoAcl superUsers) created
  rw [authorize, ofBindings, henabled, husers, hdefault,
    if_neg (show r.principal ∉ (withConfig true allowIfNoAcl superUsers).superUsers from hsuper)]
  rfl

theorem authorize_iff_permits_of_denyFirst (hwf : ∀ b ∈ created, b.WellFormed r)
    (hsuper : r.principal ∉ superUsers)
    (hkeys : Lists keys (ofBindings allowIfNoAcl superUsers created).acls)
    (hfirst : DenyFirst created r) :
    (ofBindings allowIfNoAcl superUsers created).authorize keys r = true ↔
      Permits created allowIfNoAcl r := by
  have hwf' : ∀ b, (ofBindings allowIfNoAcl superUsers created).Holds b → b.WellFormed r :=
    fun b hb => hwf b (holds_created.1 hb)
  rw [authorize_eq hsuper]
  split
  case h_1 hresult =>
    obtain ⟨a, ha, hperm, happ, hdeny⟩ := checkAuthorization_eq_allowed hwf' hkeys hresult
    refine iff_of_true rfl ⟨?_, .inl ⟨a, holds_created.1 ha, hperm, happ⟩⟩
    intro d hd hdperm hdapp
    obtain ⟨-, hlevel⟩ := hdeny d (holds_created.2 hd) hdperm hdapp
    rcases hfirst d hd hdperm hdapp with ⟨d', hd', hperm', happ', hname⟩ | hallow
    · exact (hdeny d' (holds_created.2 hd') hperm' happ').1 hname
    · obtain ⟨hname, hpat⟩ := hallow a (holds_created.1 ha) hperm happ
      exact hlevel.elim hname hpat
  case h_2 hresult =>
    obtain ⟨d, hd, hperm, happ⟩ := checkAuthorization_eq_denied hwf' hresult
    exact iff_of_false Bool.false_ne_true fun h => h.1 d (holds_created.1 hd) hperm happ
  case h_3 hresult =>
    have hnone : ∀ b ∈ created, ¬ b.Applies r := fun b hb =>
      checkAuthorization_eq_noMatchingAcl hwf' hkeys hresult (holds_created.2 hb)
    constructor
    · intro hallow
      exact ⟨fun d hd _ => hnone d hd, .inr ⟨hnone, hallow⟩⟩
    · rintro ⟨-, ⟨a, ha, -, happ⟩ | ⟨-, hallow⟩⟩
      · exact absurd happ (hnone a ha)
      · exact hallow

theorem lists_created (hnodup : keys.Nodup) (h : ∀ key, key ∈ keys ↔ ∃ b ∈ created, b.key = key) :
    Lists keys (ofBindings allowIfNoAcl superUsers created).acls := by
  refine ⟨hnodup, fun key => ?_⟩
  rw [h, ofBindings, isSome_createAll rfl]
  exact (or_iff_right Bool.false_ne_true).symm

/-- A map with a chosen binding in front can be gone through from its key. -/
theorem exists_lists_cons (allowIfNoAcl : Bool) (superUsers : List String) (a : AclBinding)
    (bs : List AclBinding) :
    ∃ rest later,
      Lists (a.key :: rest) (ofBindings allowIfNoAcl superUsers (a :: bs)).acls ∧
      (ofBindings allowIfNoAcl superUsers (a :: bs)).entries a.key = a :: later := by
  have hpre : [a] <+: (ofBindings allowIfNoAcl superUsers (a :: bs)).entries a.key := by
    have hhead : (ofBindings allowIfNoAcl superUsers [a]).entries a.key = [a] := by
      rw [ofBindings, createAll, foldl_cons, foldl_nil, entries_createAcl rfl,
        if_pos ⟨rfl, not_mem_nil⟩]
      rfl
    have hrest := entries_prefix_createAll
      (createAll_config (withConfig true allowIfNoAcl superUsers) [a]).1 bs a.key
    rwa [← ofBindings, hhead] at hrest
  obtain ⟨later, hlater⟩ := hpre
  refine ⟨((bs.map AclBinding.key).filter (· ≠ a.key)).dedup, later, lists_created ?_ ?_, hlater.symm⟩
  · refine nodup_cons.2 ⟨?_, nodup_dedup _⟩
    simp
  · intro key
    by_cases hkey : key = a.key
    · simp [hkey]
    · simp [hkey, Ne.symm hkey]

/-- The decision is that of the rule, in every order, exactly when `DenyFirst` holds. -/
theorem authorize_iff_permits (allowIfNoAcl : Bool) (superUsers : List String) (bs : List AclBinding)
    (r : AccessRequest) (hwf : ∀ b ∈ bs, b.WellFormed r) (hsuper : r.principal ∉ superUsers) :
    (∀ created keys, (∀ b, b ∈ created ↔ b ∈ bs) →
      Lists keys (ofBindings allowIfNoAcl superUsers created).acls →
      ((ofBindings allowIfNoAcl superUsers created).authorize keys r = true ↔
        Permits bs allowIfNoAcl r)) ↔
    DenyFirst bs r := by
  constructor
  · intro h d hd hdperm hdapp
    by_contra hneg
    obtain ⟨hdeny, hallow⟩ := not_or.1 hneg
    push Not at hdeny hallow
    obtain ⟨a, ha, hperm, happ, hlevel⟩ := hallow
    obtain ⟨rest, later, hkeys, hfirst⟩ := exists_lists_cons allowIfNoAcl superUsers a bs
    have hmem : ∀ b, b ∈ a :: bs ↔ b ∈ bs := by
      intro b
      rw [mem_cons, or_iff_right_of_imp]
      rintro rfl
      exact ha
    have hallowed := checkAuthorization_of_first hperm happ hfirst
      (Classical.or_iff_not_imp_left.2 hlevel)
      (fun d hd => hdeny d ((hmem d).1 (holds_created.1 hd)))
      (fun b hb => hwf b ((hmem b).1 (holds_created.1 hb))) rest
    have hdecision := h (a :: bs) (a.key :: rest) hmem hkeys
    rw [authorize_eq hsuper, hallowed] at hdecision
    exact (hdecision.1 rfl).1 d hd hdperm hdapp
  · intro hfirst created keys hmem hkeys
    have hpermits : Permits created allowIfNoAcl r ↔ Permits bs allowIfNoAcl r := by
      simp only [Permits, hmem]
    have hfirst' : DenyFirst created r := by
      simpa only [DenyFirst, hmem] using hfirst
    rw [← hpermits]
    exact authorize_iff_permits_of_denyFirst (fun b hb => hwf b ((hmem b).1 hb)) hsuper hkeys hfirst'

end created

def topicRead (name : String) (pattern : PatternType) (permission : AclPermissionType) : AclBinding :=
  ⟨.topic, name, pattern, "User:alice", "*", .read, permission⟩

def readOrders : AccessRequest := ⟨"User:alice", "10.0.0.1", .topic, "orders", .read⟩

/-- A Deny on the topic itself is respected beside Allows on a prefix and on `*`. -/
theorem authorize_iff_permits_orders :
    (∀ b ∈ [topicRead "*" .literal .allow, topicRead "ord" .prefixed .allow,
      topicRead "orders" .literal .deny], b.WellFormed readOrders) ∧
    readOrders.principal ∉ ["User:admin"] ∧
    ∀ created keys, (∀ b, b ∈ created ↔ b ∈ [topicRead "*" .literal .allow,
        topicRead "ord" .prefixed .allow, topicRead "orders" .literal .deny]) →
      Lists keys (ofBindings false ["User:admin"] created).acls →
      ((ofBindings false ["User:admin"] created).authorize keys readOrders = true ↔
        Permits [topicRead "*" .literal .allow, topicRead "ord" .prefixed .allow,
          topicRead "orders" .literal .deny] false readOrders) :=
  ⟨by decide, by decide,
    (authorize_iff_permits false ["User:admin"] _ readOrders (by decide) (by decide)).2 (by decide)⟩

/-- An Allow on the topic is found before a Deny on `*`; of two prefixes, the key that comes first
decides. -/
theorem allow_found_before_deny :
    (∃ created keys, (∀ b ∈ created, b.WellFormed readOrders) ∧
      Lists keys (ofBindings false [] created).acls ∧
      (∃ d ∈ created, d.permissionType = .deny ∧ d.Applies readOrders) ∧
      (ofBindings false [] created).authorize keys readOrders = true) ∧
    (∃ created keys keys', (∀ b ∈ created, b.WellFormed readOrders) ∧
      Lists keys (ofBindings false [] created).acls ∧
      Lists keys' (ofBindings false [] created).acls ∧
      (ofBindings false [] created).authorize keys readOrders ≠
        (ofBindings false [] created).authorize keys' readOrders) := by
  refine ⟨⟨[topicRead "orders" .literal .allow, topicRead "*" .literal .deny],
    [(.topic, "orders"), (.topic, "*")], by decide, lists_created (by decide) ?_, by decide, by decide⟩,
    ⟨[topicRead "ord" .prefixed .allow, topicRead "or" .prefixed .deny],
      [(.topic, "ord"), (.topic, "or")], [(.topic, "or"), (.topic, "ord")], by decide,
      lists_created (by decide) ?_, lists_created (by decide) ?_, by decide⟩⟩
  · simp [topicRead, AclBinding.key, eq_comm]
  · simp [topicRead, AclBinding.key, eq_comm]
  · simp [topicRead, AclBinding.key, eq_comm, or_comm]

end AclStore

end ChronikStream
