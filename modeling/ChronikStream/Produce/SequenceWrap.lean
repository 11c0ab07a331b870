import ChronikStream.Lib.Run
import ChronikStream.Produce.LeaderPartition

/-!
# A producer that sends for ever

A producer numbers its records modulo `2 ^ 31`; the broker adds in 32 bits and does not start again
at 0. A producer is understood for fewer than `2 ^ 31` records (`sequences_below_wrap`).
-/

namespace ChronikStream

open Bytes Machine List Option

variable {β : Type*}

/-- The number of records in the batches before the given one. -/
def sentBefore (batches : Nat → TxnBatch β) : Nat → Nat
  | 0 => 0
  | k + 1 => sentBefore batches k + (batches k).records.length

/-- An idempotent producer that sends batches to one partition, in order. -/
structure EndlessProducer (β : Type*) where
  producerId : Int
  producerEpoch : Int
  transactionalId : Option String
  batches : Nat → TxnBatch β
  producerId_eq : ∀ k, (batches k).producerId = producerId
  producerEpoch_eq : ∀ k, (batches k).producerEpoch = producerEpoch
  numbered : ∀ k, (batches k).baseSequence = (sentBefore batches k % 2 ^ 31 : Nat)

/-! ## The broker's side -/

/-- The sums that validation computes in 32 bits do not fit. -/
def ProducerInfo.overflows (info : ProducerInfo) (b : TxnBatch β) : Bool :=
  (info.sequence.any fun seq => decide (2 ^ 31 ≤ seq + 1)) ||
    (decide (b.baseSequence = info.expectedSequence) && decide (2 ^ 31 ≤ b.baseSequence + b.records.length))

structure ValidationRound where
  index : Nat
  first : Bool
  result : SequenceCheck
  overflow : Bool

structure Conversation where
  producers : ProducerTable
  sent : Nat
  rounds : List ValidationRound

inductive Send (β : Type*) where
  | next
  | again (k : Nat)
  | other (b : TxnBatch β) (transactionalId : Option String)

namespace EndlessProducer

variable (p : EndlessProducer β)

def validate (s : Conversation) (k : Nat) (first : Bool) : ProducerTable × ValidationRound :=
  let b := p.batches k
  let r := s.producers.validateProducerSequence b p.transactionalId
  let overflow := ((s.producers.entry b p.transactionalId).atEpoch b.producerEpoch).overflows b
  (r.1, ⟨k, first, r.2, overflow⟩)

def step (s : Conversation) : Send β → Option Conversation
  | .next =>
    let r := p.validate s s.sent true
    some ⟨r.1, s.sent + 1, s.rounds ++ [r.2]⟩
  | .again k =>
    if k < s.sent then
      let r := p.validate s k false
      some ⟨r.1, s.sent, s.rounds ++ [r.2]⟩
    else none
  | .other b transactionalId =>
    if b.producerId = p.producerId then none
    else some { s with producers := (s.producers.validateProducerSequence b transactionalId).1 }

def machine : Machine Conversation (Send β) where
  init := ⟨OrderedMap.empty, 0, []⟩
  step := p.step

/-- All records sent so far, those of the next batch too, have a number of their own. -/
def BelowWrap (s : Conversation) : Send β → Prop
  | .next => sentBefore p.batches (s.sent + 1) < 2 ^ 31
  | _ => True

instance : DecidableRel p.BelowWrap := fun _ _ => by
  unfold BelowWrap
  split <;> infer_instance

/-! ## What the broker remembers -/

/-- The entry of the producer after the first batches. -/
def infoAt (k : Nat) : ProducerInfo :=
  ⟨p.producerEpoch, if k = 0 then none else some ((sentBefore p.batches k : Int) - 1), p.transactionalId⟩

theorem expectedSequence_infoAt (h : sentBefore p.batches k < 2 ^ 31) :
    (p.infoAt k).expectedSequence = sentBefore p.batches k := by
  rw [infoAt, ProducerInfo.expectedSequence]
  split
  · subst k
    rfl
  · rw [map_some, getD_some, sub_add_cancel, wrap_eq]
    constructor <;> simp <;> omega

theorem check_infoAt (k j : Nat) :
    (p.infoAt k).check (p.batches j) p.transactionalId = (p.infoAt k).checkSequence (p.batches j) := by
  have hepoch : (p.infoAt k).producerEpoch = (p.batches j).producerEpoch := (p.producerEpoch_eq j).symm
  rw [ProducerInfo.check, if_neg (by omega), ProducerInfo.atEpoch, if_neg (by omega),
    ProducerInfo.checkTransactionalId.eq_def]
  cases hid : p.transactionalId with
  | none => rfl
  | some id => simp [infoAt, hid]

variable {p}

theorem sentBefore_add_length_le (h : j < k) :
    sentBefore p.batches j + (p.batches j).records.length ≤ sentBefore p.batches k := by
  induction k with
  | zero => cases h
  | succ k ih =>
    rcases Nat.lt_succ_iff_lt_or_eq.1 h with hlt | rfl
    · exact Nat.le_add_right_of_le (ih hlt)
    · exact le_rfl

theorem baseSequence_of_lt (h : sentBefore p.batches j < 2 ^ 31) :
    (p.batches j).baseSequence = sentBefore p.batches j := by
  rw [p.numbered, Nat.mod_eq_of_lt h]

theorem checkSequence_next (h : sentBefore p.batches (k + 1) ≤ 2 ^ 31) :
    (p.infoAt k).checkSequence (p.batches k) = (p.infoAt (k + 1), .accepted) := by
  have hlength := length_pos_iff.2 (p.batches k).nonempty
  rw [sentBefore] at h
  have hbase := baseSequence_of_lt (p := p) (j := k) (by omega)
  have hexpected := p.expectedSequence_infoAt (k := k) (by omega)
  have hlast : wrap 4 ((p.batches k).baseSequence + (p.batches k).records.length - 1) =
      (sentBefore p.batches (k + 1) : Int) - 1 := by
    rw [hbase, wrap_eq, sentBefore, Int.natCast_add]
    constructor <;> simp <;> omega
  rw [ProducerInfo.checkSequence, if_neg (by omega), if_pos (by omega), hlast]
  rfl

theorem checkSequence_again (hjk : j < k) (h : sentBefore p.batches k < 2 ^ 31) :
    (p.infoAt k).checkSequence (p.batches j) = (p.infoAt k, .rejected .duplicateSequenceNumber) := by
  have hlength := length_pos_iff.2 (p.batches j).nonempty
  have hle := sentBefore_add_length_le (p := p) hjk
  have hbase := baseSequence_of_lt (p := p) (j := j) (by omega)
  have hexpected := p.expectedSequence_infoAt h
  rw [ProducerInfo.checkSequence, if_pos (by omega)]

theorem overflows_infoAt (h : sentBefore p.batches k < 2 ^ 31)
    (hlast : sentBefore p.batches (j + 1) < 2 ^ 31) : (p.infoAt k).overflows (p.batches j) = false := by
  rw [sentBefore] at hlast
  have hbase := baseSequence_of_lt (p := p) (j := j) (by omega)
  have hsequence : (p.infoAt k).sequence.any (fun seq => decide (2 ^ 31 ≤ seq + 1)) = false := by
    rw [infoAt]
    split
    · rfl
    · rw [any_some, decide_eq_false_iff_not]
      omega
  rw [ProducerInfo.overflows, hsequence, Bool.false_or, Bool.and_eq_false_imp]
  intro _
  rw [decide_eq_false_iff_not]
  omega

/-! ## Runs -/

/-- A batch is accepted the first time and a duplicate later, and the sums fit. -/
def Understood (r : ValidationRound) : Prop :=
  r.overflow = false ∧ r.result = if r.first then .accepted else .rejected .duplicateSequenceNumber

/-- The broker remembers what the producer has sent. -/
def Remembers (p : EndlessProducer β) (s : Conversation) : Prop :=
  (s.producers.get? p.producerId).getD ⟨p.producerEpoch, none, p.transactionalId⟩ = p.infoAt s.sent

theorem Remembers.init : Remembers p p.machine.init := rfl

theorem Remembers.validate (h : Remembers p s) (j : Nat) (first : Bool) : p.validate s j first =
      (s.producers.upsert p.producerId fun _ => ((p.infoAt s.sent).checkSequence (p.batches j)).1,
        ⟨j, first, ((p.infoAt s.sent).checkSequence (p.batches j)).2, (p.infoAt s.sent).overflows (p.batches j)⟩) := by
  have hentry : s.producers.entry (p.batches j) p.transactionalId = p.infoAt s.sent := by
    rw [ProducerTable.entry, p.producerId_eq, p.producerEpoch_eq]
    exact h
  have hepoch : (p.infoAt s.sent).atEpoch (p.batches j).producerEpoch = p.infoAt s.sent := by
    rw [p.producerEpoch_eq]
    exact if_neg (lt_irrefl _)
  rw [EndlessProducer.validate, ProducerTable.validateProducerSequence, hentry, p.check_infoAt, hepoch,
    p.producerId_eq]

theorem Remembers.other {s : Conversation} (h : Remembers p s) {b : TxnBatch β} {transactionalId : Option String}
    (hb : b.producerId ≠ p.producerId) :
    Remembers p { s with producers := (s.producers.validateProducerSequence b transactionalId).1 } := by
  rw [Remembers, ProducerTable.validateProducerSequence]
  rw [OrderedMap.get?_upsert_of_ne (Ne.symm hb)]
  exact h

theorem Remembers.upsert {s : Conversation} :
    Remembers p ⟨s.producers.upsert p.producerId fun _ => p.infoAt k, k, rounds⟩ := by
  rw [Remembers]
  rw [OrderedMap.get?_upsert_self, getD_some]

structure Inv (p : EndlessProducer β) (s : Conversation) : Prop where
  remembers : Remembers p s
  below : sentBefore p.batches s.sent < 2 ^ 31
  understood : ∀ r ∈ s.rounds, Understood r

theorem inv_of_reaches (hs : Reaches p.machine p.BelowWrap s) : Inv p s := by
  refine hs.invariant ⟨.init, Nat.two_pow_pos 31, forall_mem_nil _⟩ ?_
  intro s a s' hinv hbelow hstep
  have hadd : ∀ r, Understood r → ∀ r' ∈ s.rounds ++ [r], Understood r' :=
    fun _ hr => forall_mem_concat.2 ⟨hinv.understood, hr⟩
  cases a with
  | next =>
    have hnext := checkSequence_next (le_of_lt hbelow)
    have hfits := overflows_infoAt hinv.below hbelow
    cases hstep
    rw [hinv.remembers.validate, hnext]
    exact ⟨.upsert, hbelow, hadd _ ⟨hfits, rfl⟩⟩
  | again k =>
    change p.step s (.again k) = some s' at hstep
    rw [EndlessProducer.step] at hstep
    split at hstep
    · rename_i hk
      have hagain := checkSequence_again hk hinv.below
      have hfits := overflows_infoAt hinv.below
        (lt_of_le_of_lt (sentBefore_add_length_le hk) hinv.below)
      cases hstep
      rw [hinv.remembers.validate, hagain]
      exact ⟨.upsert, hinv.below, hadd _ ⟨hfits, rfl⟩⟩
    · cases hstep
  | other b transactionalId =>
    change p.step s (.other b transactionalId) = some s' at hstep
    rw [EndlessProducer.step] at hstep
    split at hstep
    · cases hstep
    rename_i hb
    cases hstep
    exact ⟨hinv.remembers.other hb, hinv.below, hinv.understood⟩

end EndlessProducer

open EndlessProducer

/-- With fewer than `2 ^ 31` records sent, each batch is accepted once and then rejected as a
duplicate, and no sum overflows, whatever other producers send. -/
theorem sequences_below_wrap (p : EndlessProducer β) {s : Conversation}
    (hs : Reaches p.machine p.BelowWrap s) :
    ∀ r ∈ s.rounds, r.overflow = false ∧
      r.result = if r.first then .accepted else .rejected .duplicateSequenceNumber :=
  (inv_of_reaches hs).understood

/-! ## A producer of single records -/

/-- The batches of a producer that sends its records one by one. -/
def singleRecord (k : Nat) : TxnBatch Unit where
  baseOffset := 0
  epoch := 0
  records := [⟨none, ()⟩]
  nonempty := cons_ne_nil _ _
  producerId := 7
  producerEpoch := 0
  baseSequence := (k % 2 ^ 31 : Nat)
  isTransactional := false
  isControl := false

theorem sentBefore_singleRecord (k : Nat) : sentBefore singleRecord k = k := by
  induction k with
  | zero => rfl
  | succ k ih =>
    rw [sentBefore, ih]
    rfl

def singleRecords : EndlessProducer Unit where
  producerId := 7
  producerEpoch := 0
  transactionalId := none
  batches := singleRecord
  producerId_eq _ := rfl
  producerEpoch_eq _ := rfl
  numbered k := by
    rw [sentBefore_singleRecord]
    rfl

/-- Two batches, and the first one again. -/
theorem sequences_below_wrap_singleRecords :
    ∃ s, Reaches singleRecords.machine singleRecords.BelowWrap s ∧
      s.rounds.map (·.result) = [.accepted, .accepted, .rejected .duplicateSequenceNumber] ∧
      ∀ r ∈ s.rounds, r.overflow = false ∧
        r.result = if r.first then .accepted else .rejected .duplicateSequenceNumber :=
  exists_reaches_and singleRecords.machine singleRecords.BelowWrap
    [.next, .next, .again 0] (by decide +kernel) fun _ hs => sequences_below_wrap singleRecords hs

theorem exists_reaches_singleRecords (n : Nat) (hn : n ≤ 2 ^ 31) :
    ∃ s, Reaches singleRecords.machine Always s ∧ s.sent = n ∧ Remembers singleRecords s ∧
      ∀ r ∈ s.rounds, r.result = .accepted := by
  induction n with
  | zero => exact ⟨_, .init, rfl, .init, forall_mem_nil _⟩
  | succ n ih =>
    obtain ⟨s, hs, hsent, hremembers, haccepted⟩ := ih (Nat.le_of_succ_le hn)
    subst hsent
    have hnext := checkSequence_next (p := singleRecords) (k := s.sent)
      (le_of_eq_of_le (sentBefore_singleRecord (s.sent + 1)) hn)
    refine ⟨_, hs.step .next trivial rfl, rfl, ?_, ?_⟩
    · rw [hremembers.validate, hnext]
      exact .upsert
    · rw [hremembers.validate, hnext]
      exact forall_mem_concat.2 ⟨haccepted, rfl⟩

/-- After `2 ^ 31` accepted records the next has the number 0 again, and the broker expects a number
below 0. -/
theorem restarted_sequence_not_accepted :
    ∃ s, Reaches singleRecords.machine Always s ∧ s.sent = 2 ^ 31 ∧ (∀ r ∈ s.rounds, r.result = .accepted) ∧
      (singleRecords.batches s.sent).baseSequence = 0 ∧
      (singleRecords.validate s s.sent true).2.overflow = true ∧
      (singleRecords.validate s s.sent true).2.result = .waiting := by
  obtain ⟨s, hs, hsent, hremembers, haccepted⟩ := exists_reaches_singleRecords (2 ^ 31) le_rfl
  have hinfo : singleRecords.infoAt (2 ^ 31) = ⟨0, some (2 ^ 31 - 1), none⟩ := by
    rw [infoAt]
    have hcount : sentBefore singleRecords.batches (2 ^ 31) = 2 ^ 31 := sentBefore_singleRecord _
    rw [hcount]
    rfl
  refine ⟨s, hs, hsent, haccepted, by rw [hsent]; rfl, ?_, ?_⟩
  · rw [hremembers.validate, hsent, hinfo]
    dsimp only
    decide +kernel
  · rw [hremembers.validate, hsent, hinfo]
    dsimp only
    decide +kernel

end ChronikStream
