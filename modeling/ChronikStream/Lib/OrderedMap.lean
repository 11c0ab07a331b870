import Mathlib.Data.List.Nodup
import Mathlib.Order.Lattice

/-!
# Maps kept in the order of their keys

A map as the ascending list of its entries, with the order as a field, so that two maps with the
same entries are equal.
-/

/-- A finite map, as the list of its entries in ascending order of the keys. -/
structure OrderedMap (κ β : Type*) [LT κ] where
  entries : List (κ × β)
  ascending : entries.Pairwise (·.1 < ·.1)

namespace OrderedMap

open List Option

variable {κ β : Type*}

def empty [LT κ] : OrderedMap κ β := ⟨[], .nil⟩

@[ext] theorem ext [LT κ] {m m' : OrderedMap κ β} (h : m.entries = m'.entries) : m = m' := by
  cases m
  cases m'
  cases h
  rfl

instance [LT κ] [DecidableEq κ] [DecidableEq β] : DecidableEq (OrderedMap κ β) :=
  fun _ _ => decidable_of_iff _ OrderedMap.ext_iff.symm

section
variable [LinearOrder κ] {m : OrderedMap κ β} {k k' : κ} {b : β} {x : κ × β} {f : Option β → β}

/-! ## Reading and erasing -/

def get? (m : OrderedMap κ β) (k : κ) : Option β :=
  (m.entries.find? (·.1 = k)).map Prod.snd

def erase (m : OrderedMap κ β) (k : κ) : OrderedMap κ β :=
  ⟨m.entries.filter (·.1 ≠ k), m.ascending.filter _⟩

theorem get?_eq_some_iff : m.get? k = some b ↔ (k, b) ∈ m.entries := by
  have hnodup : (m.entries.map Prod.fst).Nodup :=
    pairwise_map.2 (m.ascending.imp fun h => ne_of_lt h)
  rw [get?, map_eq_some_iff]
  constructor
  · rintro ⟨x, hx, rfl⟩
    obtain rfl : x.1 = k := by simpa using find?_some hx
    exact mem_of_find?_eq_some hx
  · intro hmem
    cases hfind : m.entries.find? (·.1 = k) with
    | none => exact absurd (decide_eq_true rfl) (find?_eq_none.1 hfind _ hmem)
    | some x =>
    have hx : x.1 = k := by simpa using find?_some hfind
    rw [inj_on_of_nodup_map hnodup (mem_of_find?_eq_some hfind) hmem hx]
    exact ⟨_, rfl, rfl⟩

theorem ext_get? {m m' : OrderedMap κ β} (h : ∀ k, m.get? k = m'.get? k) : m = m' := by
  have hmem : ∀ x, x ∈ m.entries ↔ x ∈ m'.entries := by
    intro x
    rw [← get?_eq_some_iff, ← get?_eq_some_iff, h]
  have hnodup : ∀ m : OrderedMap κ β, m.entries.Nodup := by
    intro m
    refine m.ascending.imp ?_
    rintro x y hlt rfl
    exact lt_irrefl _ hlt
  have hperm := (perm_ext_iff_of_nodup (hnodup m) (hnodup m')).2 hmem
  exact ext (hperm.eq_of_pairwise (fun _ _ _ _ hab hba => absurd hab (lt_asymm hba)) m.ascending
    m'.ascending)

theorem mem_erase : x ∈ (m.erase k).entries ↔ x ∈ m.entries ∧ x.1 ≠ k := by
  rw [erase, mem_filter, decide_eq_true_iff]

theorem get?_erase_self : (m.erase k).get? k = none := by
  rw [eq_none_iff_forall_ne_some]
  intro b hb
  exact (mem_erase.1 (get?_eq_some_iff.1 hb)).2 rfl

theorem get?_erase_of_ne (h : k' ≠ k) : (m.erase k).get? k' = m.get? k' := by
  ext b
  rw [get?_eq_some_iff, get?_eq_some_iff, mem_erase]
  exact and_iff_left h

/-! ## Changing one value -/

/-- The entries with the value of `k` changed by `f`, which gets the value there is, if any. -/
def upsertList (k : κ) (f : Option β → β) : List (κ × β) → List (κ × β)
  | [] => [(k, f none)]
  | (k', b) :: rest =>
    if k < k' then (k, f none) :: (k', b) :: rest
    else if k' < k then (k', b) :: upsertList k f rest
    else (k', f (some b)) :: rest

theorem mem_upsertList (h : l.Pairwise (·.1 < ·.1)) :
    x ∈ upsertList k f l ↔
      (x ∈ l ∧ x.1 ≠ k) ∨ x = (k, f ((l.find? (·.1 = k)).map Prod.snd)) := by
  induction l with
  | nil => simp [upsertList]
  | cons y rest ih =>
    obtain ⟨k', b⟩ := y
    obtain ⟨hhead, hrest⟩ := pairwise_cons.1 h
    rw [upsertList]
    split
    case isTrue hlt =>
      have hne : ∀ z ∈ (k', b) :: rest, z.1 ≠ k := by
        intro z hz
        rcases mem_cons.1 hz with rfl | hz
        · exact (ne_of_lt hlt).symm
        · exact (ne_of_lt (lt_trans hlt (hhead z hz))).symm
      rw [find?_eq_none.2 fun z hz => by simpa using hne z hz, mem_cons, or_comm]
      exact or_congr_left (and_iff_left_of_imp (hne x)).symm
    case isFalse hle =>
      split
      case isTrue hgt =>
        have hk : k' ≠ k := ne_of_lt hgt
        rw [mem_cons, ih hrest, mem_cons, find?_cons_of_neg (by simpa using hk)]
        constructor
        · rintro (rfl | ⟨hx, hne⟩ | rfl)
          · exact .inl ⟨.inl rfl, hk⟩
          · exact .inl ⟨.inr hx, hne⟩
          · exact .inr rfl
        · rintro (⟨rfl | hx, hne⟩ | rfl)
          · exact .inl rfl
          · exact .inr (.inl ⟨hx, hne⟩)
          · exact .inr (.inr rfl)
      case isFalse hge =>
        obtain rfl : k = k' := le_antisymm (not_lt.1 hge) (not_lt.1 hle)
        rw [find?_cons_of_pos (by simp), mem_cons, mem_cons, or_comm]
        refine or_congr_left ⟨fun hx => ⟨.inr hx, (ne_of_lt (hhead x hx)).symm⟩, ?_⟩
        rintro ⟨rfl | hx, hne⟩
        · exact absurd rfl hne
        · exact hx

theorem pairwise_upsertList (h : l.Pairwise (·.1 < ·.1)) :
    (upsertList k f l).Pairwise (·.1 < ·.1) := by
  induction l with
  | nil => exact pairwise_singleton _ _
  | cons y rest ih =>
    obtain ⟨hhead, hrest⟩ := pairwise_cons.1 h
    rw [upsertList]
    split
    case isTrue hlt =>
      refine pairwise_cons.2 ⟨fun z hz => ?_, h⟩
      rcases mem_cons.1 hz with rfl | hz
      · exact hlt
      · exact lt_trans hlt (hhead z hz)
    case isFalse hle =>
      split
      case isTrue hgt =>
        refine pairwise_cons.2 ⟨fun z hz => ?_, ih hrest⟩
        rcases (mem_upsertList hrest).1 hz with ⟨hz, -⟩ | rfl
        · exact hhead z hz
        · exact hgt
      case isFalse => exact pairwise_cons.2 ⟨hhead, hrest⟩

def upsert (m : OrderedMap κ β) (k : κ) (f : Option β → β) : OrderedMap κ β :=
  ⟨upsertList k f m.entries, pairwise_upsertList m.ascending⟩

theorem mem_upsert :
    x ∈ (m.upsert k f).entries ↔ (x ∈ m.entries ∧ x.1 ≠ k) ∨ x = (k, f (m.get? k)) :=
  mem_upsertList m.ascending

theorem get?_upsert_self : (m.upsert k f).get? k = some (f (m.get? k)) :=
  get?_eq_some_iff.2 (mem_upsert.2 (.inr rfl))

theorem get?_upsert_of_ne (h : k' ≠ k) : (m.upsert k f).get? k' = m.get? k' := by
  ext b
  rw [get?_eq_some_iff, get?_eq_some_iff, mem_upsert, Prod.mk.injEq]
  exact ⟨fun hx => hx.elim And.left fun hx => absurd hx.1 h, fun hx => .inl ⟨hx, h⟩⟩

/-! ## Adding missing entries -/

/-- The map with the entries whose keys it does not have. -/
def insertMissing (m : OrderedMap κ β) (entries : List (κ × β)) : OrderedMap κ β :=
  entries.foldl (fun m x => m.upsert x.1 (·.getD x.2)) m

theorem get?_insertMissing :
    (m.insertMissing l).get? k = (m.get? k).or ((l.find? (·.1 = k)).map Prod.snd) := by
  induction l generalizing m with
  | nil => exact or_none.symm
  | cons x l ih =>
    refine (ih (m := m.upsert x.1 (·.getD x.2))).trans ?_
    by_cases hk : x.1 = k
    · subst hk
      rw [get?_upsert_self, find?_cons_of_pos (by simp)]
      cases m.get? x.1 <;> rfl
    · rw [get?_upsert_of_ne (fun h => hk h.symm), find?_cons_of_neg (by simpa using hk)]

end

/-! ## Going through all entries -/

section
variable [LT κ] {f : κ → β → Option β}

/-- Each entry changed by `f`, and dropped where it gives nothing. -/
def filterMapValues (m : OrderedMap κ β) (f : κ → β → Option β) : OrderedMap κ β where
  entries := m.entries.filterMap fun x => (f x.1 x.2).map (x.1, ·)
  ascending := by
    refine m.ascending.filterMap _ fun x y hxy a ha b hb => ?_
    obtain ⟨_, -, rfl⟩ := map_eq_some_iff.1 ha
    obtain ⟨_, -, rfl⟩ := map_eq_some_iff.1 hb
    exact hxy

theorem mem_filterMapValues {m : OrderedMap κ β} :
    x ∈ (m.filterMapValues f).entries ↔ ∃ b, (x.1, b) ∈ m.entries ∧ f x.1 b = some x.2 := by
  rw [filterMapValues, mem_filterMap]
  constructor
  · rintro ⟨⟨k, b⟩, hb, hx⟩
    obtain ⟨b', hf, rfl⟩ := map_eq_some_iff.1 hx
    exact ⟨b, hb, hf⟩
  · rintro ⟨b, hb, hf⟩
    exact ⟨(x.1, b), hb, map_eq_some_iff.2 ⟨x.2, hf, rfl⟩⟩

end

section
variable [LinearOrder κ] {m : OrderedMap κ β}

theorem get?_filterMapValues {f : κ → β → Option β} :
    (m.filterMapValues f).get? k = (m.get? k).bind (f k) := by
  ext b
  rw [get?_eq_some_iff, mem_filterMapValues, bind_eq_some_iff]
  constructor
  · rintro ⟨a, ha, hf⟩
    exact ⟨a, get?_eq_some_iff.2 ha, hf⟩
  · rintro ⟨a, ha, hf⟩
    exact ⟨a, get?_eq_some_iff.1 ha, hf⟩

def mapValues {γ : Type*} (m : OrderedMap κ β) (f : κ → β → γ) : OrderedMap κ γ where
  entries := m.entries.map fun x => (x.1, f x.1 x.2)
  ascending := pairwise_map.2 m.ascending

theorem get?_mapValues : (m.mapValues f).get? k = (m.get? k).map (f k) := by
  ext c
  rw [get?_eq_some_iff, mapValues, List.mem_map, map_eq_some_iff]
  constructor
  · rintro ⟨x, hx, heq⟩
    cases heq
    exact ⟨x.2, get?_eq_some_iff.2 hx, rfl⟩
  · rintro ⟨b, hb, rfl⟩
    exact ⟨(k, b), get?_eq_some_iff.1 hb, rfl⟩

end

end OrderedMap
