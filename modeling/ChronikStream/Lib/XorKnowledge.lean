import Mathlib.Algebra.Field.ZMod
import Mathlib.Data.Finsupp.Encodable

/-!
# What an attacker derives from proofs that are masked keys

A group `D` of byte strings with exclusive or, hash functions and message codes whose values are
independent (`BlackBox`). A proof over a text is a key, masked with the code of the text under the
hash of the key. An attacker that adds, hashes and codes what it knows derives no proof for a text
that was not proved (`BlackBox.mem_of_derivable`).
-/

/-- Hash functions, message codes, and the secrets, each for one of the hash functions. -/
structure MaskedKeys (D I K A : Type*) where
  hash : I → D → D
  mac : I → D → A → D
  secret : K → D
  inst : K → I
  label : A

namespace MaskedKeys

variable {D I K A : Type*} [AddCommGroup D]

inductive Value (D I K A : Type*) where
  | secret (k : K)
  | hash (i : I) (d : D)
  | mac (i : I) (d : D) (a : A)

variable (S : MaskedKeys D I K A)

def key (k : K) : D := S.mac (S.inst k) (S.secret k) S.label

def stored (k : K) : D := S.hash (S.inst k) (S.key k)

def tag (k : K) (a : A) : D := S.mac (S.inst k) (S.stored k) a

def proof (k : K) (a : A) : D := S.key k + S.tag k a

/-- What is derived from a set of known values. -/
inductive Derivable (known : Set D) : D → Prop where
  | known {d : D} : d ∈ known → Derivable known d
  | add {d d' : D} : Derivable known d → Derivable known d' → Derivable known (d + d')
  | hash {d : D} (i : I) : Derivable known d → Derivable known (S.hash i d)
  | mac {d : D} (i : I) (a : A) : Derivable known d → Derivable known (S.mac i d a)

def eval : Value D I K A → D
  | .secret k => S.secret k
  | .hash i d => S.hash i d
  | .mac i d a => S.mac i d a

def keyValue (k : K) : Value D I K A := .mac (S.inst k) (S.secret k) S.label

def storedValue (k : K) : Value D I K A := .hash (S.inst k) (S.key k)

def tagValue (k : K) (a : A) : Value D I K A := .mac (S.inst k) (S.stored k) a

structure BlackBox where
  coord : Value D I K A → D →+ ZMod 2
  coord_self : ∀ v, coord v (S.eval v) = 1
  coord_of_ne : ∀ v w, v ≠ w → coord v (S.eval w) = 0

namespace BlackBox

variable {S} (B : S.BlackBox)

/-- A value that has nothing to do with the secrets. -/
structure Unrelated (d : D) : Prop where
  secret : ∀ k, B.coord (.secret k) d = 0
  key : ∀ k, B.coord (S.keyValue k) d = 0
  stored : ∀ k, B.coord (S.storedValue k) d = 0
  tag : ∀ k a, B.coord (S.tagValue k a) d = 0

include B in
theorem eval_injective : Function.Injective S.eval := by
  intro v w hvw
  by_contra hne
  have h1 := B.coord_self v
  rw [hvw, B.coord_of_ne v w hne] at h1
  exact zero_ne_one h1

include B in
theorem secret_injective : Function.Injective S.secret := by
  intro k k' h
  have hv : (Value.secret k : Value D I K A) = .secret k' := B.eval_injective h
  injection hv

include B in
theorem key_injective : Function.Injective S.key := by
  intro k k' h
  have hv : S.keyValue k = S.keyValue k' := B.eval_injective h
  injection hv with _ hd
  exact B.secret_injective hd

include B in
theorem eq_of_stored_eq (h : S.hash i d = S.stored k) : i = S.inst k ∧ d = S.key k := by
  have hv : (Value.hash i d : Value D I K A) = S.storedValue k := B.eval_injective h
  injection hv with hi hd
  exact ⟨hi, hd⟩

include B in
theorem tagValue_injective (h : S.tagValue k a = S.tagValue k' a') : k = k' ∧ a = a' := by
  injection h with hi hd ha
  exact ⟨B.key_injective (B.eq_of_stored_eq hd).2, ha⟩

include B in
theorem keyValue_ne_tagValue (k k' : K) (a : A) : S.keyValue k ≠ S.tagValue k' a := by
  intro h
  injection h with _ hd
  have hv : (Value.secret k : Value D I K A) = S.storedValue k' := B.eval_injective hd
  cases hv

/-- A value of the black boxes other than a secret, its key, the hash of the key and its codes. -/
theorem unrelated_eval (hsecret : ∀ k, v ≠ .secret k) (hkey : ∀ k, v ≠ S.keyValue k)
    (hstored : ∀ k, v ≠ S.storedValue k) (htag : ∀ k a, v ≠ S.tagValue k a) : B.Unrelated (S.eval v) where
  secret k := B.coord_of_ne _ v (hsecret k).symm
  key k := B.coord_of_ne _ v (hkey k).symm
  stored k := B.coord_of_ne _ v (hstored k).symm
  tag k a := B.coord_of_ne _ v (htag k a).symm

open Classical in
/-- The masks of a key that a value has, among those of the proved texts. -/
noncomputable def masks (proved : Finset (K × A)) (k : K) (d : D) : ZMod 2 :=
  ∑ p ∈ proved, if p.1 = k then B.coord (S.tagValue k p.2) d else 0

/-- A derived value has no secret, no stored key, no mask of a text that was not proved, and as many
keys as masks. -/
structure Covered (proved : Finset (K × A)) (d : D) : Prop where
  secret : ∀ k, B.coord (.secret k) d = 0
  tag : ∀ k a, (k, a) ∉ proved → B.coord (S.tagValue k a) d = 0
  stored : ∀ k, B.coord (S.storedValue k) d = 0
  key : ∀ k, B.coord (S.keyValue k) d = B.masks proved k d

variable {B} {proved : Finset (K × A)} {d : D}

theorem masks_eq_zero (h : ∀ a, B.coord (S.tagValue k a) d = 0) : B.masks proved k d = 0 := by
  classical
  refine Finset.sum_eq_zero fun p _ => ?_
  split
  · exact h p.2
  · rfl

theorem Covered.of_unrelated (h : B.Unrelated d) : B.Covered proved d where
  secret := h.secret
  tag k a _ := h.tag k a
  stored := h.stored
  key k := by rw [h.key k, masks_eq_zero (h.tag k)]

theorem Covered.add (h : B.Covered proved d) (h' : B.Covered proved d') : B.Covered proved (d + d') where
  secret k := by rw [map_add, h.secret k, h'.secret k, add_zero]
  tag k a hka := by rw [map_add, h.tag k a hka, h'.tag k a hka, add_zero]
  stored k := by rw [map_add, h.stored k, h'.stored k, add_zero]
  key k := by
    rw [map_add, h.key k, h'.key k, masks, masks, ← Finset.sum_add_distrib]
    refine Finset.sum_congr rfl fun p _ => ?_
    split
    · rw [map_add]
    · rw [add_zero]

theorem coord_proof (v : Value D I K A) (k : K) (a : A) :
    B.coord v (S.proof k a) = B.coord v (S.eval (S.keyValue k)) + B.coord v (S.eval (S.tagValue k a)) :=
  map_add ..

theorem coord_tag_proof_of_ne (hne : S.tagValue k' a' ≠ S.tagValue k a) :
    B.coord (S.tagValue k' a') (S.proof k a) = 0 := by
  rw [coord_proof, B.coord_of_ne _ _ (B.keyValue_ne_tagValue _ _ _).symm, B.coord_of_ne _ _ hne, add_zero]

theorem masks_proof (h : (k, a) ∈ proved) : B.masks proved k (S.proof k a) = 1 := by
  classical
  rw [masks, Finset.sum_eq_single_of_mem (k, a) h]
  · rw [if_pos rfl, coord_proof, B.coord_of_ne _ _ (B.keyValue_ne_tagValue _ _ _).symm, B.coord_self, zero_add]
  · rintro ⟨k', a'⟩ - hne
    split
    · rename_i hk
      obtain rfl : k' = k := hk
      refine coord_tag_proof_of_ne fun heq => hne ?_
      exact congrArg (Prod.mk k') (B.tagValue_injective heq).2
    · rfl

theorem Covered.proof (h : (k, a) ∈ proved) : B.Covered proved (S.proof k a) where
  secret k' := by
    rw [coord_proof, B.coord_of_ne _ _ (by rintro ⟨⟩), B.coord_of_ne _ _ (by rintro ⟨⟩), add_zero]
  tag k' a' hka := by
    refine coord_tag_proof_of_ne fun heq => hka ?_
    obtain ⟨rfl, rfl⟩ := B.tagValue_injective heq
    exact h
  stored k' := by
    rw [coord_proof, B.coord_of_ne _ _ (by rintro ⟨⟩), B.coord_of_ne _ _ (by rintro ⟨⟩), add_zero]
  key k' := by
    rw [coord_proof, B.coord_of_ne _ _ (B.keyValue_ne_tagValue k' k a), add_zero]
    by_cases hk : k = k'
    · subst hk
      rw [B.coord_self, masks_proof h]
    have hne : S.keyValue k' ≠ S.keyValue k := fun heq => hk (B.key_injective (congrArg S.eval heq)).symm
    have hzero : B.masks proved k' (S.proof k a) = 0 :=
      masks_eq_zero fun a' => coord_tag_proof_of_ne fun heq => hk (B.tagValue_injective heq).1.symm
    rw [B.coord_of_ne _ _ hne, hzero]

section
variable (h : B.Covered proved d)
include h

theorem Covered.ne_secret (k : K) : d ≠ S.secret k := by
  rintro rfl
  have hone : B.coord (.secret k) (S.secret k) = 1 := B.coord_self (.secret k)
  rw [h.secret k] at hone
  exact zero_ne_one hone

theorem Covered.ne_stored (k : K) : d ≠ S.stored k := by
  rintro rfl
  have hone : B.coord (S.storedValue k) (S.stored k) = 1 := B.coord_self (S.storedValue k)
  rw [h.stored k] at hone
  exact zero_ne_one hone

theorem Covered.ne_key (k : K) : d ≠ S.key k := by
  rintro rfl
  have hmask : B.masks proved k (S.key k) = 0 :=
    masks_eq_zero fun a => B.coord_of_ne _ (S.keyValue k) (B.keyValue_ne_tagValue k k a).symm
  have hone : B.coord (S.keyValue k) (S.key k) = 1 := B.coord_self (S.keyValue k)
  rw [h.key k, hmask] at hone
  exact zero_ne_one hone

theorem Covered.hash (i : I) : B.Covered proved (S.hash i d) := by
  refine .of_unrelated (B.unrelated_eval (v := .hash i d) (by rintro _ ⟨⟩) (by rintro _ ⟨⟩) ?_ (by rintro _ _ ⟨⟩))
  intro k heq
  injection heq with _ hd
  exact h.ne_key k hd

theorem Covered.mac (i : I) (a : A) : B.Covered proved (S.mac i d a) := by
  refine .of_unrelated (B.unrelated_eval (v := .mac i d a) (by rintro _ ⟨⟩) ?_ (by rintro _ ⟨⟩) ?_)
  · intro k heq
    injection heq with _ hd
    exact h.ne_secret k hd
  · intro k a' heq
    injection heq with _ hd
    exact h.ne_stored k hd

end

/-- Everything that is derived from proofs and unrelated values is covered by the proofs. -/
theorem covered_of_derivable
    (hknown : ∀ d ∈ known, B.Unrelated d ∨ ∃ p ∈ proved, d = S.proof p.1 p.2)
    (h : S.Derivable known d) : B.Covered proved d := by
  induction h with
  | known hd =>
    rcases hknown _ hd with hun | ⟨p, hp, rfl⟩
    · exact .of_unrelated hun
    · exact .proof hp
  | add _ _ ih ih' => exact ih.add ih'
  | hash i _ ih => exact ih.hash i
  | mac i a _ ih => exact ih.mac i a

/-- A derived value that unmasks to a key with the code of a text is the proof for a text that was
proved. -/
theorem mem_of_derivable (hknown : ∀ d ∈ known, B.Unrelated d ∨ ∃ p ∈ proved, d = S.proof p.1 p.2)
    (h : S.Derivable known d) (hkey : d + S.tag k a = S.key k) : (k, a) ∈ proved := by
  by_contra hka
  have hd := (covered_of_derivable hknown h).tag k a hka
  have htag : B.coord (S.tagValue k a) (S.tag k a) = 1 := B.coord_self (S.tagValue k a)
  have hzero : B.coord (S.tagValue k a) (S.key k) = 0 :=
    B.coord_of_ne _ (S.keyValue k) (B.keyValue_ne_tagValue k k a).symm
  rw [← hkey, map_add, hd, htag] at hzero
  exact one_ne_zero hzero

end BlackBox

end MaskedKeys

/-! ## Free black boxes -/

namespace MaskedKeys

variable {I K A : Type*}

theorem Value.countable [Countable D] [Countable I] [Countable K] [Countable A] : Countable (Value D I K A) := by
  let code : Value D I K A → K ⊕ (I × D) ⊕ (I × D × A)
    | .secret k => .inl k
    | .hash i d => .inr (.inl (i, d))
    | .mac i d a => .inr (.inr (i, d, a))
  refine Function.Injective.countable (f := code) ?_
  intro v w h
  cases v <;> cases w <;> simp_all [code]

variable [Countable I] [Countable K] [Countable A]

/-- Sums of countably many independent values. -/
abbrev Sums : Type := ℕ →₀ ZMod 2

theorem Sums.add_self (d : Sums) : d + d = 0 := ZModModule.add_self d

theorem exists_code : ∃ code : Value Sums I K A → ℕ, Function.Injective code :=
  have := Value.countable (D := Sums) (I := I) (K := K) (A := A)
  exists_injective_nat _

/-- Every value of the black boxes is a value of its own. -/
noncomputable def freeValue (v : Value Sums I K A) : Sums :=
  Finsupp.single (exists_code.choose v) 1

noncomputable def free (inst : K → I) (label : A) : MaskedKeys Sums I K A where
  hash i d := freeValue (K := K) (A := A) (.hash i d)
  mac i d a := freeValue (K := K) (.mac i d a)
  secret k := freeValue (I := I) (A := A) (.secret k)
  inst := inst
  label := label

theorem free_eval (inst : K → I) (label : A) (v : Value Sums I K A) : (free inst label).eval v = freeValue v := by
  cases v <;> rfl

noncomputable def freeBlackBox (inst : K → I) (label : A) : (free inst label).BlackBox where
  coord v := Finsupp.applyAddHom (exists_code.choose v)
  coord_self v := by
    rw [free_eval, freeValue, Finsupp.applyAddHom_apply, Finsupp.single_eq_same]
  coord_of_ne v w h := by
    rw [free_eval, freeValue, Finsupp.applyAddHom_apply]
    exact Finsupp.single_eq_of_ne fun heq => h (exists_code.choose_spec heq)

end MaskedKeys
