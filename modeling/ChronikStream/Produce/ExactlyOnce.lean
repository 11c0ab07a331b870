import ChronikStream.Lib.Run
import ChronikStream.Produce.LeaderPartition

/-!
# Idempotent producers

`validate_producer_sequence` advances the expected sequence before the append, so the retry of a
batch whose append failed is taken for a duplicate. `LeaderPartition.SequenceKept` excludes this,
two requests at a time, unanswered appends, and a newer epoch that does not start with its first
batch. The invariant is about `passed`, the batches that have passed the validation: they are the
first ones of what the producer sends.
-/

namespace ChronikStream

open Bytes OffsetRange Machine List Option OrderedMap ProducerTable List.Sublist

variable {β : Type*}

/-! ## What a producer sends -/

/-- A batch as its producer sent it, whatever the leader assigned to it. -/
structure SentBatch (β : Type*) where
  batch : TxnBatch β
  deriving DecidableEq

/-- The sequence numbers of its records. -/
instance : OffsetRange (SentBatch β) where
  base b := b.batch.baseSequence
  last b := b.batch.baseSequence + b.batch.records.length - 1

def TxnBatch.sent (b : TxnBatch β) : SentBatch β := ⟨b.stamp 0 0⟩

/-- What a producer sends under one epoch: batches that are numbered without a gap, below the
largest sequence number. -/
structure ProducerStream (β : Type*) where
  batches : List (SentBatch β)
  numbered : ContiguousFrom 0 batches
  fits : endFrom 0 batches < 2 ^ 31

/-- Producers send, in any order and as often as they like, the batches of their streams. -/
def SentFrom (streams : Int → Int → ProducerStream β) (_ : LeaderPartition β) :
    ProduceAction β → Prop
  | .request b _ _ => b.Sequenced → b.sent ∈ (streams b.producerId b.producerEpoch).batches
  | _ => True

instance [DecidableEq β] (streams : Int → Int → ProducerStream β) :
    DecidableRel (SentFrom streams) := fun _ _ => by
  unfold SentFrom
  split <;> infer_instance

def produceRequests : Machine (LeaderPartition β) (ProduceAction β) where
  init := .empty
  step := LeaderPartition.step

/-! ## Exactly once -/

/-- A batch with lower sequence numbers has lower offsets. -/
def InSequenceOrder (x y : TxnBatch β) : Prop :=
  x.baseSequence < y.baseSequence → x.lastOffset < y.baseOffset

/-- Idempotent produce is exactly-once. -/
structure ExactlyOnce [DecidableEq β] (s : LeaderPartition β) : Prop where
  /-- A batch answered as a duplicate is in the log. -/
  duplicate : ∀ a ∈ s.answers, a.batch.Sequenced → a.error = some .duplicateSequenceNumber →
    ∃ b ∈ s.log, b.sent = a.batch.sent
  /-- A request that is answered with an error leaves the expected sequence as it was. -/
  unchanged : ∀ a ∈ s.answers, a.batch.Sequenced → a.error ≠ none → a.after = a.before
  /-- A batch that was accepted, or answered as a duplicate, is in the log once. -/
  once : ∀ a ∈ s.answers, a.batch.Sequenced →
    a.error = none ∨ a.error = some .duplicateSequenceNumber →
    (s.log.map TxnBatch.sent).count a.batch.sent = 1
  /-- The batches of a producer are in sequence order. -/
  ordered : ∀ x ∈ s.log, ∀ y ∈ s.log, x.Sequenced → y.Sequenced → x.producerId = y.producerId →
    x.producerEpoch = y.producerEpoch → InSequenceOrder x y

/-- A batch of a newer epoch is the first one of it, and has the producer's transactional id. -/
def ProducerInfo.Admits (info : ProducerInfo) (b : TxnBatch β) (transactionalId : Option String) :
    Prop :=
  info.producerEpoch < b.producerEpoch →
    b.baseSequence = 0 ∧ ∀ id ∈ transactionalId, ∀ existing ∈ info.transactionalId, existing = id
deriving Decidable

/-- A producer has one request in flight, a newer epoch starts with its first batch, and what passes
the validation is appended and acknowledged. -/
def LeaderPartition.SequenceKept (s : LeaderPartition β) : ProduceAction β → Prop
  | .request b transactionalId _ => b.Sequenced →
    (∀ r ∈ s.inFlight, r.batch.Sequenced → r.batch.producerId ≠ b.producerId) ∧
      ∀ info ∈ s.producers.get? b.producerId, info.Admits b transactionalId
  | .append i outcome => ∀ r ∈ s.inFlight[i]?, r.batch.Sequenced → outcome = .acknowledged
  | _ => True

instance : DecidableRel (LeaderPartition.SequenceKept (β := β)) := fun _ _ => by
  unfold LeaderPartition.SequenceKept
  split <;> infer_instance

/-! ## Validation -/

section
variable {info : ProducerInfo} {b : TxnBatch β} {transactionalId : Option String}

theorem ProducerInfo.checkTransactionalId_cases (info : ProducerInfo) (b : TxnBatch β)
    (transactionalId : Option String) :
    (info.checkTransactionalId b transactionalId = (info, .rejected .invalidTransactionState) ∧
      ∃ id ∈ transactionalId, ∃ existing ∈ info.transactionalId, existing ≠ id) ∨
    ∃ next : ProducerInfo, next.producerEpoch = info.producerEpoch ∧
      next.sequence = info.sequence ∧
      info.checkTransactionalId b transactionalId = next.checkSequence b := by
  unfold checkTransactionalId
  split
  case h_1 id existing hid =>
    split
    case isTrue hne => exact .inl ⟨rfl, id, rfl, existing, hid, hne⟩
    case isFalse => exact .inr ⟨info, rfl, rfl, rfl⟩
  case h_2 id _ => exact .inr ⟨{ info with transactionalId := some id }, rfl, rfl, rfl⟩
  case h_3 => exact .inr ⟨info, rfl, rfl, rfl⟩

def TxnBatch.lastSequence (b : TxnBatch β) : Int :=
  wrap 4 (b.baseSequence + b.records.length - 1)

/-- Validation accepts the batch that comes next in its epoch and advances the sequence, or leaves
it. -/
theorem ProducerInfo.check_cases (h : info.Admits b transactionalId) :
    (∃ next, info.check b transactionalId = (next, .accepted) ∧
      info.producerEpoch ≤ b.producerEpoch ∧
      b.baseSequence = (info.atEpoch b.producerEpoch).expectedSequence ∧
      next.producerEpoch = b.producerEpoch ∧ next.sequence = some b.lastSequence) ∨
    ∃ next result, info.check b transactionalId = (next, result) ∧ result ≠ .accepted ∧
      b.producerEpoch ≤ info.producerEpoch ∧
      next.producerEpoch = info.producerEpoch ∧ next.sequence = info.sequence ∧
      (result = .rejected .duplicateSequenceNumber →
        b.producerEpoch = info.producerEpoch ∧ b.baseSequence < info.expectedSequence) := by
  rcases Int.lt_trichotomy b.producerEpoch info.producerEpoch with hlt | heq | hgt
  · refine .inr ⟨info, _, if_pos hlt, nofun, le_of_lt hlt, rfl, rfl, nofun⟩
  · have hsame : info.atEpoch b.producerEpoch = info := if_neg (by omega)
    rw [check, if_neg (by omega), hsame]
    rcases info.checkTransactionalId_cases b transactionalId with ⟨hreject, -⟩ | ⟨next, he, hs, hcheck⟩
    · exact .inr ⟨info, _, hreject, nofun, le_of_eq heq, rfl, rfl, nofun⟩
    have hexpected : next.expectedSequence = info.expectedSequence := by
      rw [expectedSequence, hs, expectedSequence]
    rw [hcheck, checkSequence, hexpected]
    split
    case isTrue hdup =>
      exact .inr ⟨next, _, rfl, nofun, le_of_eq heq, he, hs, fun _ => ⟨heq, hdup⟩⟩
    case isFalse =>
    split
    case isTrue hnext =>
      exact .inl ⟨_, rfl, le_of_eq heq.symm, hnext, he.trans heq.symm, rfl⟩
    case isFalse => exact .inr ⟨next, _, rfl, nofun, le_of_eq heq, he, hs, nofun⟩
  · -- the reset expects 0, which is what the first batch of the epoch has
    obtain ⟨hbase, hid⟩ := h hgt
    have hreset : info.atEpoch b.producerEpoch =
        { info with producerEpoch := b.producerEpoch, sequence := none } := if_pos hgt
    rw [check, if_neg (by omega)]
    rcases (info.atEpoch b.producerEpoch).checkTransactionalId_cases b transactionalId with
      ⟨-, id, hmem, existing, hex, hne⟩ | ⟨next, he, hs, hcheck⟩
    · rw [hreset] at hex
      exact absurd (hid id hmem existing hex) hne
    rw [hreset] at he hs
    have hexpected : next.expectedSequence = 0 := by
      rw [expectedSequence, hs]
      rfl
    rw [hcheck, checkSequence, hexpected, hbase]
    exact .inl ⟨_, rfl, le_of_lt hgt, by rw [hreset]; rfl, he,
      by rw [TxnBatch.lastSequence, hbase]⟩

end

/-! ## The batches that have passed the validation -/

/-- The batches of a producer under an epoch that are validated. -/
def TxnBatch.Of (producerId producerEpoch : Int) (b : TxnBatch β) : Prop :=
  b.Sequenced ∧ b.producerId = producerId ∧ b.producerEpoch = producerEpoch
deriving Decidable

/-- A request of the producer that has passed the validation. -/
def ProduceRequest.Passed (p e : Int) (r : ProduceRequest β) : Prop :=
  r.stage ≠ .reserved ∧ r.batch.Of p e
deriving Decidable

/-- The batches of a producer under an epoch that have passed the validation, those in the log
first. -/
def passed (log : List (TxnBatch β)) (inFlight : List (ProduceRequest β)) (p e : Int) :
    List (TxnBatch β) :=
  log.filter (·.Of p e) ++ (inFlight.filter (·.Passed p e)).map (·.batch)

section
variable {log : List (TxnBatch β)} {front back : List (ProduceRequest β)} {r : ProduceRequest β}
  {b : TxnBatch β} {p e : Int}

/-- The requests in flight besides `r` are of other producers. -/
def Alone (r : ProduceRequest β) (others : List (ProduceRequest β)) : Prop :=
  ∀ q ∈ others, q.batch.Sequenced → q.batch.producerId ≠ r.batch.producerId

theorem Alone.filter_passed (h : Alone r (front ++ back)) (hr : r.batch.Of p e) :
    front.filter (·.Passed p e) = [] ∧ back.filter (·.Passed p e) = [] := by
  rw [← append_eq_nil_iff, ← filter_append]
  refine filter_eq_nil_iff.2 fun q hq hpassed => ?_
  obtain ⟨-, hseq, hp, -⟩ := of_decide_eq_true hpassed
  exact h q hq hseq (hp.trans hr.2.1.symm)

theorem passed_of_alone (h : Alone r (front ++ back)) (hr : r.batch.Of p e) :
    passed log (front ++ back) p e = log.filter (·.Of p e) := by
  obtain ⟨hfront, hback⟩ := h.filter_passed hr
  rw [passed, filter_append, hfront, hback, nil_append, map_nil, append_nil]

theorem passed_reserved (hr : r.stage = .reserved) :
    passed log (front ++ r :: back) p e = passed log (front ++ back) p e := by
  rw [passed, passed, filter_append, filter_append,
    filter_cons_of_neg (by simp [ProduceRequest.Passed, hr])]

theorem passed_validated (h : Alone r (front ++ back)) (hr : r.batch.Of p e)
    (hr' : r'.stage ≠ .reserved) (hbatch : r'.batch = r.batch) :
    passed log (front ++ r' :: back) p e = log.filter (·.Of p e) ++ [r.batch] := by
  obtain ⟨hfront, hback⟩ := h.filter_passed hr
  rw [passed, filter_append, hfront,
    filter_cons_of_pos (by simp [ProduceRequest.Passed, hr', hbatch, hr]), hback,
    nil_append, map_cons, map_nil, hbatch]

theorem passed_of_not_of (hr : ¬ r.batch.Of p e) :
    passed log (front ++ r :: back) p e = passed log (front ++ back) p e := by
  rw [passed, passed, filter_append, filter_append,
    filter_cons_of_neg (by simp [ProduceRequest.Passed, hr])]

theorem passed_concat_of_not_of (hb : ¬ b.Of p e) :
    passed (log ++ [b]) inFlight p e = passed log inFlight p e := by
  rw [passed, passed, filter_append, filter_cons_of_neg (by simpa using hb), filter_nil, append_nil]

/-- A request that has passed counts the same at every later stage, and in the log. -/
theorem passed_indexed (hr : r.stage ≠ .reserved) (hr' : r'.stage ≠ .reserved)
    (hbatch : r'.batch = r.batch) :
    passed log (front ++ r' :: back) p e = passed log (front ++ r :: back) p e := by
  have hpassed : r'.Passed p e ↔ r.Passed p e := by
    simp [ProduceRequest.Passed, hr, hr', hbatch]
  rw [passed, passed, filter_append, filter_append]
  by_cases hp : r.Passed p e
  · rw [filter_cons_of_pos (by simpa using hpassed.2 hp),
      filter_cons_of_pos (by simpa using hp), map_append, map_append, map_cons,
      map_cons, hbatch]
  · rw [filter_cons_of_neg (by simpa using mt hpassed.1 hp), filter_cons_of_neg (by simpa using hp)]

theorem passed_append (h : r.batch.Sequenced → Alone r (front ++ back)) (hr : r.stage ≠ .reserved) :
    passed (log ++ [r.batch]) (front ++ back) p e = passed log (front ++ r :: back) p e := by
  by_cases hof : r.batch.Of p e
  · have halone := h hof.1
    rw [passed_of_alone halone hof, passed_validated halone hof hr rfl, filter_append,
      filter_cons_of_pos (by simpa using hof), filter_nil]
  · rw [passed_concat_of_not_of hof, passed_of_not_of hof]

end

/-! ## The expected sequence -/

/-- The batches that have passed are the first ones the producer sends, and the expected sequence is
the number behind them. -/
structure SequenceState (streams : Int → Int → ProducerStream β) (producers : ProducerTable)
    (passed : Int → Int → List (TxnBatch β)) : Prop where
  sent : ∀ p e, (passed p e).map TxnBatch.sent <+: (streams p e).batches
  known : ∀ p e, passed p e ≠ [] → ∃ info ∈ producers.get? p, e ≤ info.producerEpoch
  expected : ∀ p, ∀ info ∈ producers.get? p,
    info.expectedSequence = endFrom 0 ((passed p info.producerEpoch).map TxnBatch.sent)

namespace SequenceState

variable {streams : Int → Int → ProducerStream β} {producers : ProducerTable}
  {passed passed' : Int → Int → List (TxnBatch β)} {b : TxnBatch β} {next : ProducerInfo}
  {transactionalId : Option String}

section
variable (h : SequenceState streams producers passed)
include h

/-- The sequence expected in the batch's epoch is the number behind the batches of that epoch. -/
theorem expected_atEpoch (hle : (producers.entry b transactionalId).producerEpoch ≤ b.producerEpoch) :
    ((producers.entry b transactionalId).atEpoch b.producerEpoch).expectedSequence =
      endFrom 0 ((passed b.producerId b.producerEpoch).map TxnBatch.sent) := by
  have hnone : (∀ info ∈ producers.get? b.producerId, info.producerEpoch < b.producerEpoch) →
      passed b.producerId b.producerEpoch = [] := by
    intro hold
    by_contra hne
    obtain ⟨info, hinfo, hle⟩ := h.known _ _ hne
    have := hold info hinfo
    omega
  rw [entry] at hle ⊢
  cases hget : producers.get? b.producerId with
  | none =>
    rw [hget] at hnone
    rw [hnone (fun _ hinfo => nomatch hinfo), getD_none, ProducerInfo.atEpoch,
      if_neg (lt_irrefl _)]
    rfl
  | some info =>
    rw [hget] at hle
    rw [ProducerInfo.atEpoch]
    split
    case isTrue hlt =>
      rw [hget] at hnone
      rw [hnone fun _ hinfo => some.inj hinfo ▸ hlt]
      rfl
    case isFalse hge =>
      rw [← le_antisymm hle (not_lt.1 hge)]
      exact h.expected _ info hget

theorem reject (hepoch : next.producerEpoch = (producers.entry b transactionalId).producerEpoch)
    (hsequence : next.sequence = (producers.entry b transactionalId).sequence) :
    SequenceState streams (producers.upsert b.producerId fun _ => next) passed where
  sent := h.sent
  known p e hne := by
    obtain ⟨info, hinfo, hle⟩ := h.known p e hne
    rcases eq_or_ne p b.producerId with rfl | hp
    · refine ⟨next, get?_upsert_self, ?_⟩
      rwa [hepoch, entry, hinfo]
    · exact ⟨info, (get?_upsert_of_ne hp).trans hinfo, hle⟩
  expected p info hinfo := by
    rcases eq_or_ne p b.producerId with rfl | hp
    · obtain rfl : next = info := some.inj (get?_upsert_self.symm.trans hinfo)
      rw [ProducerInfo.expectedSequence, hsequence, hepoch, entry]
      cases hget : producers.get? b.producerId with
      | some old => exact h.expected _ old hget
      | none =>
      have hempty : passed b.producerId b.producerEpoch = [] := by
        by_contra hne
        obtain ⟨_, hinfo, -⟩ := h.known _ _ hne
        rw [hget] at hinfo
        cases hinfo
      rw [getD_none, hempty]
      rfl
    · exact h.expected p info ((get?_upsert_of_ne hp).symm.trans hinfo)

theorem accept (hsent : b.sent ∈ (streams b.producerId b.producerEpoch).batches)
    (hle : (producers.entry b transactionalId).producerEpoch ≤ b.producerEpoch)
    (hbase : b.baseSequence =
      ((producers.entry b transactionalId).atEpoch b.producerEpoch).expectedSequence)
    (hepoch : next.producerEpoch = b.producerEpoch) (hsequence : next.sequence = some b.lastSequence)
    (hself : passed' b.producerId b.producerEpoch = passed b.producerId b.producerEpoch ++ [b])
    (hothers : ∀ p e, ¬ (p = b.producerId ∧ e = b.producerEpoch) → passed' p e = passed p e) :
    SequenceState streams (producers.upsert b.producerId fun _ => next) passed' where
  sent p e := by
    by_cases hpe : p = b.producerId ∧ e = b.producerEpoch
    · obtain ⟨rfl, rfl⟩ := hpe
      rw [hself, map_append]
      refine (streams _ _).numbered.concat_of_base_eq (h.sent _ _) hsent ?_
      exact hbase.trans (h.expected_atEpoch hle)
    · rw [hothers p e hpe]
      exact h.sent p e
  known p e hne := by
    rcases eq_or_ne p b.producerId with rfl | hp
    · refine ⟨next, get?_upsert_self, ?_⟩
      rw [hepoch]
      by_cases he : e = b.producerEpoch
      · exact le_of_eq he
      rw [hothers _ e fun hpe => he hpe.2] at hne
      obtain ⟨info, hinfo, hold⟩ := h.known _ e hne
      rw [entry, hinfo, getD_some] at hle
      omega
    · rw [hothers p e fun hpe => hp hpe.1] at hne
      obtain ⟨info, hinfo, hold⟩ := h.known p e hne
      exact ⟨info, (get?_upsert_of_ne hp).trans hinfo, hold⟩
  expected p info hinfo := by
    rcases eq_or_ne p b.producerId with rfl | hp
    · obtain rfl : next = info := some.inj (get?_upsert_self.symm.trans hinfo)
      -- the numbers of the stream fit, so nothing wraps
      have hbounds := (streams _ _).numbered.bounds hsent
      have hfits := (streams b.producerId b.producerEpoch).fits
      have hlast : last b.sent = b.baseSequence + b.records.length - 1 := rfl
      have hwrap : b.lastSequence = last b.sent := wrap_eq ⟨by omega, by omega⟩
      rw [ProducerInfo.expectedSequence, hsequence, hepoch, hself, map_append,
        endFrom_append, hwrap]
      exact wrap_eq ⟨by omega, by omega⟩
    · rw [hothers p _ fun hpe => hp hpe.1]
      exact h.expected p info ((get?_upsert_of_ne hp).symm.trans hinfo)

end

end SequenceState

/-! ## The offsets -/

/-- The requests in flight have offsets of their own, behind the log of their producer. -/
structure Placed (nextOffset : Int) (log requests : List (TxnBatch β)) : Prop where
  below : ∀ b ∈ log ++ requests, b.lastOffset < nextOffset
  single : requests.Pairwise fun b c => b.Sequenced → c.Sequenced → b.producerId ≠ c.producerId
  behind : ∀ c ∈ requests, c.Sequenced → ∀ b ∈ log, b.Sequenced → b.producerId = c.producerId →
    b.lastOffset < c.baseOffset
  ascending : ∀ p e, Ascending (log.filter (·.Of p e))

namespace Placed

variable {nextOffset : Int} {log requests front back : List (TxnBatch β)} {b : TxnBatch β}

theorem request (h : Placed nextOffset log requests) (hbase : b.baseOffset = nextOffset)
    (halone : b.Sequenced → ∀ c ∈ requests, c.Sequenced → c.producerId ≠ b.producerId) :
    Placed (nextOffset + b.records.length) log (requests ++ [b]) where
  __ := h
  below := by
    have hlast : b.lastOffset = nextOffset + b.records.length - 1 := by rw [← hbase]; rfl
    rw [← append_assoc]
    refine forall_mem_concat.2 ⟨fun c hc => ?_, by omega⟩
    have := h.below c hc
    omega
  single := by
    refine pairwise_concat.2 ⟨h.single, fun c hc => ?_⟩
    exact fun hcs hbs => halone hbs c hc hcs
  behind := by
    refine forall_mem_concat.2 ⟨h.behind, fun _ c hc _ _ => ?_⟩
    rw [hbase]
    exact h.below c (mem_append_left _ hc)

theorem sublist (h : Placed nextOffset log requests)
    (hsub : requests'.Sublist requests) : Placed nextOffset log requests' where
  __ := h
  below b hb := h.below b ((append_left hsub log).subset hb)
  single := h.single.sublist hsub
  behind c hc := h.behind c (hsub.subset hc)

variable (h : Placed nextOffset log (front ++ b :: back))
include h

theorem alone (hb : b.Sequenced) :
    ∀ c ∈ front ++ back, c.Sequenced → c.producerId ≠ b.producerId := by
  obtain ⟨-, hback, hcross⟩ := pairwise_append.1 h.single
  refine forall_mem_append.2 ⟨fun c hc hcs => hcross c hc b (.head _) hcs hb, ?_⟩
  exact fun c hc hcs => (rel_of_pairwise_cons hback hc hb hcs).symm

theorem append : Placed nextOffset (log ++ [b]) (front ++ back) where
  below c hc := by
    refine h.below c ?_
    simp only [mem_append, mem_cons] at hc ⊢
    tauto
  single := h.single.sublist (append_left (sublist_cons_self ..) front)
  behind c hc hcs := by
    refine forall_mem_concat.2 ⟨h.behind c ?_ hcs, ?_⟩
    · exact Slots.mem_of_mem_others hc
    · exact fun hbs hp => absurd hp.symm (h.alone hbs c hc hcs)
  ascending p e := by
    rw [filter_append]
    by_cases hof : b.Of p e
    · rw [filter_cons_of_pos (by simpa using hof)]
      refine pairwise_concat.2 ⟨h.ascending p e, fun c hc => ?_⟩
      obtain ⟨hc, hcof⟩ := mem_filter.1 hc
      obtain ⟨hcs, hcp, -⟩ : c.Of p e := of_decide_eq_true hcof
      exact h.behind b mem_append_cons_self hof.1 c hc hcs (hcp.trans hof.2.1.symm)
    · rw [filter_cons_of_neg (by simpa using hof), filter_nil, append_nil]
      exact h.ascending p e

end Placed

/-! ## Runs -/

/-- What is known of a request that waits for its validation. -/
structure Awaits (streams : Int → Int → ProducerStream β) (producers : ProducerTable)
    (r : ProduceRequest β) : Prop where
  sequenced : r.batch.Sequenced
  sent : r.batch.sent ∈ (streams r.batch.producerId r.batch.producerEpoch).batches
  admits : ∀ info ∈ producers.get? r.batch.producerId, info.Admits r.batch r.transactionalId
  expected : r.expected = producers.expectedSequence r.batch.producerId

/-- The invariant of runs in which no request fails once it has passed the validation. -/
structure LeaderPartition.Sequences (streams : Int → Int → ProducerStream β)
    (s : LeaderPartition β) : Prop where
  placed : Placed s.nextOffset s.log (s.inFlight.map (·.batch))
  state : SequenceState streams s.producers (passed s.log s.inFlight)
  awaits : ∀ r ∈ s.inFlight, r.stage = .reserved → Awaits streams s.producers r
  stored : ∀ a ∈ s.answers, a.batch.Sequenced →
    a.error = none ∨ a.error = some .duplicateSequenceNumber → ∃ b ∈ s.log, b.sent = a.batch.sent
  unchanged : ∀ a ∈ s.answers, a.batch.Sequenced → a.error ≠ none → a.after = a.before

namespace LeaderPartition.Sequences

variable {streams : Int → Int → ProducerStream β} {s : LeaderPartition β}
  {front back : List (ProduceRequest β)} {r : ProduceRequest β}

theorem alone (h : s.Sequences streams) (hsplit : s.inFlight = front ++ r :: back)
    (hr : r.batch.Sequenced) : Alone r (front ++ back) := by
  have hplaced := h.placed
  rw [hsplit, map_append] at hplaced
  intro q hq
  refine hplaced.alone hr q.batch ?_
  rw [← map_append]
  exact mem_map_of_mem hq

theorem awaits_upsert {producers : ProducerTable} {next : ProducerInfo}
    (h : Awaits streams producers q) (hne : q.batch.producerId ≠ p) :
    Awaits streams (producers.upsert p fun _ => next) q where
  __ := h
  admits info hinfo := h.admits info ((get?_upsert_of_ne hne).symm.trans hinfo)
  expected := by
    rw [h.expected, expectedSequence, expectedSequence, get?_upsert_of_ne hne]

theorem request (h : s.Sequences streams)
    (hsent : SentFrom streams s (.request b transactionalId leaderEpoch))
    (hok : s.SequenceKept (.request b transactionalId leaderEpoch)) :
    (s.request b transactionalId leaderEpoch).Sequences streams where
  __ := h
  placed := by
    rw [LeaderPartition.request, map_append]
    refine h.placed.request (b := b.stamp s.nextOffset leaderEpoch) rfl fun hseq c hc => ?_
    obtain ⟨r, hr, rfl⟩ := mem_map.1 hc
    exact (hok hseq).1 r hr
  state := by
    have hsame : passed s.log (s.request b transactionalId leaderEpoch).inFlight =
        passed s.log s.inFlight := by
      funext p e
      rw [passed, passed, LeaderPartition.request, filter_append, filter_cons_of_neg,
        filter_nil, append_nil]
      rw [decide_eq_true_iff]
      rintro ⟨hstage, hof⟩
      exact hstage (if_pos hof.1)
    have := h.state
    rwa [← hsame] at this
  awaits := by
    refine forall_mem_concat.2 ⟨h.awaits, fun hstage => ?_⟩
    have hseq : b.Sequenced := by
      by_contra hseq
      rw [if_neg hseq] at hstage
      cases hstage
    exact ⟨hseq, hsent hseq, (hok hseq).2, rfl⟩

theorem accepted {next : ProducerInfo} (h : s.Sequences streams) (hsplit : s.inFlight = front ++ r :: back)
    (hr : r.stage = .reserved)
    (hle : (s.producers.entry r.batch r.transactionalId).producerEpoch ≤ r.batch.producerEpoch)
    (hbase : r.batch.baseSequence =
      ((s.producers.entry r.batch r.transactionalId).atEpoch r.batch.producerEpoch).expectedSequence)
    (hepoch : next.producerEpoch = r.batch.producerEpoch)
    (hsequence : next.sequence = some r.batch.lastSequence) :
    Sequences streams { s with
      producers := s.producers.upsert r.batch.producerId fun _ => next
      inFlight := front ++ { r with stage := .validated } :: back } := by
  have hr' := h.awaits r (hsplit ▸ mem_append_cons_self) hr
  have halone := h.alone hsplit hr'.sequenced
  obtain ⟨hplaced, hstate, hawaits, hstored, hunchanged⟩ := h
  rw [hsplit] at hplaced hstate hawaits
  refine ⟨by simpa using hplaced, ?_, ?_, hstored, hunchanged⟩
  · refine hstate.accept hr'.sent hle hbase hepoch hsequence ?_ fun p e hpe => ?_
    · have hof : r.batch.Of r.batch.producerId r.batch.producerEpoch := ⟨hr'.sequenced, rfl, rfl⟩
      rw [passed_reserved hr, passed_of_alone halone hof]
      exact passed_validated halone hof nofun rfl
    · have hnot : ¬ r.batch.Of p e := fun hof => hpe ⟨hof.2.1.symm, hof.2.2.symm⟩
      rw [passed_of_not_of hnot]
      exact passed_of_not_of hnot
  · intro q hq hstage
    have hq : q ∈ front ++ back := by
      rcases mem_append.1 hq with hq | hq
      · exact mem_append_left _ hq
      rcases mem_cons.1 hq with rfl | hq
      · cases hstage
      · exact mem_append_right _ hq
    have hq' := hawaits q ((append_left (sublist_cons_self ..) front).subset hq)
      hstage
    exact awaits_upsert hq' (halone q hq hq'.sequenced)

theorem expectedSequence_upsert {producers : ProducerTable} {next : ProducerInfo}
    (hsequence : next.sequence = (producers.entry b transactionalId).sequence) :
    expectedSequence (producers.upsert b.producerId fun _ => next) b.producerId =
      producers.expectedSequence b.producerId := by
  rw [expectedSequence, get?_upsert_self, expectedSequence,
    map_some, ProducerInfo.expectedSequence, hsequence, entry]
  cases producers.get? b.producerId <;> rfl

section
variable (h : s.Sequences streams)
include h

section
variable {next : ProducerInfo} (hsplit : s.inFlight = front ++ r :: back) (hr : r.stage = .reserved)
  (hepoch : next.producerEpoch = (s.producers.entry r.batch r.transactionalId).producerEpoch)
  (hsequence : next.sequence = (s.producers.entry r.batch r.transactionalId).sequence)
include hsplit hr hepoch hsequence

theorem rejected
    (hdup : e = .duplicateSequenceNumber →
      r.batch.producerEpoch = (s.producers.entry r.batch r.transactionalId).producerEpoch ∧
      r.batch.baseSequence < (s.producers.entry r.batch r.transactionalId).expectedSequence) :
    Sequences streams { s with
      producers := s.producers.upsert r.batch.producerId fun _ => next
      inFlight := front ++ back
      answers := s.answers ++ [⟨r.batch, some e, r.expected, expectedSequence
        (s.producers.upsert r.batch.producerId fun _ => next) r.batch.producerId⟩] } := by
  have hr' := h.awaits r (hsplit ▸ mem_append_cons_self) hr
  have halone := h.alone hsplit hr'.sequenced
  obtain ⟨hplaced, hstate, hawaits, hstored, hunchanged⟩ := h
  have hsub : (front ++ back).Sublist (front ++ r :: back) :=
    append_left (sublist_cons_self ..) front
  rw [hsplit] at hplaced hstate hawaits
  have hpassed : passed s.log (front ++ r :: back) = passed s.log (front ++ back) := by
    funext p e
    exact passed_reserved hr
  rw [hpassed] at hstate
  refine ⟨hplaced.sublist (hsub.map _), hstate.reject hepoch hsequence, ?_, ?_, ?_⟩
  · intro q hq hstage
    have hq' := hawaits q (hsub.subset hq) hstage
    exact awaits_upsert hq' (halone q hq hq'.sequenced)
  · refine forall_mem_concat.2 ⟨hstored, fun _ herror => ?_⟩
    obtain rfl : e = .duplicateSequenceNumber := by
      rcases herror with herror | herror
      · cases herror
      · exact some.inj herror
    -- the number is below the expected one, so the batch has passed, and it is not in flight
    obtain ⟨hsame, hlt⟩ := hdup rfl
    have hexpected := hstate.expected_atEpoch (le_of_eq hsame.symm)
    rw [ProducerInfo.atEpoch, if_neg (by omega)] at hexpected
    have hmem := (streams _ _).numbered.mem_of_base_lt (hstate.sent _ _) hr'.sent (hexpected ▸ hlt)
    obtain ⟨b, hb, hsent⟩ := mem_map.1 hmem
    rw [passed_of_alone halone ⟨hr'.sequenced, rfl, rfl⟩] at hb
    exact ⟨b, (mem_filter.1 hb).1, hsent⟩
  · refine forall_mem_concat.2 ⟨hunchanged, fun _ _ => ?_⟩
    exact (expectedSequence_upsert hsequence).trans hr'.expected.symm

theorem waiting
    (hle : r.batch.producerEpoch ≤ (s.producers.entry r.batch r.transactionalId).producerEpoch) :
    Sequences streams
      { s with producers := s.producers.upsert r.batch.producerId fun _ => next } := by
  have hr' := h.awaits r (hsplit ▸ mem_append_cons_self) hr
  have halone := h.alone hsplit hr'.sequenced
  refine ⟨h.placed, h.state.reject hepoch hsequence, ?_, h.stored, h.unchanged⟩
  intro q hq hstage
  have hq' := h.awaits q hq hstage
  have hq : q ∈ front ++ r :: back := hsplit ▸ hq
  by_cases hqr : q = r
  · rw [hqr]
    refine ⟨hr'.sequenced, hr'.sent, fun info hinfo hlt => ?_, ?_⟩
    · obtain rfl : next = info := some.inj (get?_upsert_self.symm.trans hinfo)
      omega
    · exact hr'.expected.trans (expectedSequence_upsert hsequence).symm
  · have hothers : q ∈ front ++ back := by
      simp only [mem_append, mem_cons, hqr, false_or] at hq ⊢
      exact hq
    exact awaits_upsert hq' (halone q hothers hq'.sequenced)

end

theorem validate (hs : s.validate i expired = some s') : s'.Sequences streams := by
  obtain ⟨front, r, back, hsplit, -, hr, producers, result, hcheck, hcases⟩ := validate_cases hs
  have hr' := h.awaits r (hsplit ▸ mem_append_cons_self) hr
  have hadmits : (s.producers.entry r.batch r.transactionalId).Admits r.batch r.transactionalId := by
    rw [entry]
    cases hget : s.producers.get? r.batch.producerId with
    | none => exact fun hlt => absurd hlt (lt_irrefl _)
    | some info => exact hr'.admits info hget
  rw [validateProducerSequence] at hcheck
  rcases ProducerInfo.check_cases hadmits with ⟨next, heq, hle, hbase, hepoch, hsequence⟩ |
    ⟨next, result', heq, hne, hle, hepoch, hsequence, hdup⟩
  · rw [heq] at hcheck
    cases hcheck
    rcases hcases with ⟨-, rfl⟩ | ⟨e, hresult | ⟨hresult, -⟩, -⟩ | ⟨hresult, -⟩
    · exact h.accepted hsplit hr hle hbase hepoch hsequence
    all_goals cases hresult
  · rw [heq] at hcheck
    cases hcheck
    rcases hcases with ⟨hresult, -⟩ | ⟨e, hresult, rfl⟩ | ⟨-, -, rfl⟩
    · exact absurd hresult hne
    · refine h.rejected hsplit hr hepoch hsequence fun he => hdup ?_
      rcases hresult with hresult | ⟨-, -, hresult⟩
      · rw [hresult, he]
      · rw [he] at hresult
        cases hresult
    · exact h.waiting hsplit hr hepoch hsequence hle

theorem applyIndex (hs : s.applyIndex i = some s') : s'.Sequences streams := by
  obtain ⟨front, r, back, hsplit, -, hr, rfl⟩ := applyIndex_cases hs
  obtain ⟨hplaced, hstate, hawaits, hstored, hunchanged⟩ := h
  rw [hsplit] at hplaced hstate hawaits
  refine ⟨by simpa using hplaced, ?_, ?_, hstored, hunchanged⟩
  · have hpassed : passed s.log (front ++ { r with stage := .indexed } :: back) =
        passed s.log (front ++ r :: back) := by
      funext p e
      exact passed_indexed (by rw [hr]; decide) nofun rfl
    rwa [← hpassed] at hstate
  · intro q hq hstage
    refine hawaits q ?_ hstage
    rcases mem_append.1 hq with hq | hq
    · exact mem_append_left _ hq
    rcases mem_cons.1 hq with rfl | hq
    · cases hstage
    · exact mem_append_right _ (.tail _ hq)

theorem append (hok : s.SequenceKept (.append i outcome)) (hs : s.append i outcome = some s') :
    s'.Sequences streams := by
  obtain ⟨front, r, back, error, hsplit, hlen, hr, rfl, herror, hdup⟩ := append_cases hs
  have hne : r.stage ≠ .reserved := by rw [hr]; decide
  have hacknowledged : r.batch.Sequenced → outcome = .acknowledged := by
    refine hok r ?_
    rw [hsplit, ← hlen, getElem?_append_right (le_refl _), Nat.sub_self]
    rfl
  have halone := h.alone hsplit
  obtain ⟨hplaced, hstate, hawaits, hstored, hunchanged⟩ := h
  have hsub : (front ++ back).Sublist (front ++ r :: back) :=
    append_left (sublist_cons_self ..) front
  rw [hsplit] at hplaced hstate hawaits
  have hawaits' : ∀ q ∈ front ++ back, q.stage = .reserved → Awaits streams s.producers q :=
    fun q hq => hawaits q (hsub.subset hq)
  have hunchanged' : ∀ a ∈ s.answers ++ [⟨r.batch, error, r.expected,
      s.producers.expectedSequence r.batch.producerId⟩],
      a.batch.Sequenced → a.error ≠ none → a.after = a.before := by
    refine forall_mem_concat.2 ⟨hunchanged, fun hseq hne => ?_⟩
    exact absurd (herror.2 (hacknowledged hseq)) hne
  split
  case isTrue hfailed =>
    -- only a batch that is not validated
    have hseq : ¬ r.batch.Sequenced := fun hseq => by
      rw [hacknowledged hseq] at hfailed
      cases hfailed
    refine ⟨hplaced.sublist (hsub.map _), ?_, hawaits', ?_, hunchanged'⟩
    · have hpassed : passed s.log (front ++ r :: back) = passed s.log (front ++ back) := by
        funext p e
        exact passed_of_not_of fun hof => hseq hof.1
      rwa [hpassed] at hstate
    · exact forall_mem_concat.2
        ⟨hstored, fun h => absurd h hseq⟩
  case isFalse =>
    refine ⟨?_, ?_, hawaits', ?_, hunchanged'⟩
    · rw [map_append] at hplaced
      rw [map_append]
      exact hplaced.append
    · have hpassed : passed (s.log ++ [r.batch]) (front ++ back) =
          passed s.log (front ++ r :: back) := by
        funext p e
        exact passed_append halone hne
      rwa [← hpassed] at hstate
    · refine forall_mem_append.2 ⟨fun a ha hseq hstore => ?_, ?_⟩
      · obtain ⟨b, hb, hsent⟩ := hstored a ha hseq hstore
        exact ⟨b, mem_append_left _ hb, hsent⟩
      · exact forall_mem_singleton.2 fun _ _ => ⟨_, mem_concat_self, rfl⟩

theorem step (hsent : SentFrom streams s a)
    (hok : s.SequenceKept a) (hs : s.step a = some s') : s'.Sequences streams := by
  cases a with
  | request b transactionalId leaderEpoch =>
    cases hs
    exact h.request hsent hok
  | validate i expired => exact h.validate hs
  | applyIndex i => exact h.applyIndex hs
  | append i outcome => exact h.append hok hs

end

end LeaderPartition.Sequences

section
variable {streams : Int → Int → ProducerStream β} {s : LeaderPartition β} {p e : Int}

theorem LeaderPartition.Sequences.sent_ascending (h : s.Sequences streams) (p e : Int) :
    Ascending ((s.log.filter (·.Of p e)).map TxnBatch.sent) := by
  refine (streams p e).numbered.ascending.sublist (List.Sublist.trans ?_ (h.state.sent p e).sublist)
  exact (sublist_append_left ..).map _

theorem LeaderPartition.Sequences.ordered (h : s.Sequences streams)
    (hx : x ∈ s.log.filter (·.Of p e)) (hy : y ∈ s.log.filter (·.Of p e)) :
    InSequenceOrder x y := by
  have hsent := pairwise_map.1 (h.sent_ascending p e)
  have hself : ∀ z ∈ s.log.filter (·.Of p e), InSequenceOrder z z :=
    fun z _ hlt => absurd hlt (lt_irrefl _)
  have hforward : (s.log.filter (·.Of p e)).Pairwise InSequenceOrder := by
    refine (h.placed.ascending p e).imp ?_
    exact fun hlt _ => hlt
  have hbackward : (s.log.filter (·.Of p e)).Pairwise (flip InSequenceOrder) := by
    refine hsent.imp ?_
    intro a b hlt hba
    have hlt : a.baseSequence + a.records.length - 1 < b.baseSequence := hlt
    omega
  exact List.Pairwise.forall_of_forall_of_flip hself hforward hbackward hx hy

theorem LeaderPartition.Sequences.count_eq_one [DecidableEq β] (h : s.Sequences streams)
    {b : TxnBatch β} (hseq : b.Sequenced) (hmem : ∃ c ∈ s.log, c.sent = b.sent) :
    (s.log.map TxnBatch.sent).count b.sent = 1 := by
  -- what was sent says which producer and epoch it is of
  have hof : ∀ c : TxnBatch β, c.sent = b.sent → c.Of b.producerId b.producerEpoch := by
    intro c hc
    have hstamp : c.stamp 0 0 = b.stamp 0 0 := congrArg SentBatch.batch hc
    have hsequenced : (c.stamp 0 0).Sequenced := hstamp ▸ hseq
    have hproducer : (c.stamp 0 0).producerId = b.producerId := by rw [hstamp]; rfl
    have hepoch : (c.stamp 0 0).producerEpoch = b.producerEpoch := by rw [hstamp]; rfl
    exact ⟨hsequenced, hproducer, hepoch⟩
  have hfilter : (s.log.map TxnBatch.sent).count b.sent =
      ((s.log.filter (·.Of b.producerId b.producerEpoch)).map TxnBatch.sent).count b.sent := by
    rw [count_eq_countP, count_eq_countP, countP_map, countP_map, countP_filter]
    refine countP_congr fun c _ => ?_
    simpa using hof c
  obtain ⟨c, hc, hsent⟩ := hmem
  rw [hfilter]
  refine count_eq_one_of_mem ((h.sent_ascending _ _).imp ?_) ?_
  · rintro x y hlt rfl
    have hlt : x.batch.baseSequence + x.batch.records.length - 1 < x.batch.baseSequence := hlt
    have := x.batch.length_pos
    omega
  · rw [← hsent]
    exact mem_map_of_mem (mem_filter.2 ⟨hc, decide_eq_true (hof c hsent)⟩)

/-- Idempotent produce is exactly-once in every run of requests from the producers' streams whose
steps meet the condition. -/
theorem exactlyOnce_of_sequenceKept [DecidableEq β] (streams : Int → Int → ProducerStream β)
    (h : Reaches produceRequests (fun s a => SentFrom streams s a ∧ s.SequenceKept a) s) :
    ExactlyOnce s := by
  have hinit : (produceRequests : Machine (LeaderPartition β) _).init.Sequences streams := by
    refine ⟨⟨fun _ hb => (nomatch hb), .nil, fun _ hc => (nomatch hc), fun _ _ => .nil⟩, ?_,
      fun _ hr => (nomatch hr), fun _ ha => (nomatch ha), fun _ ha => (nomatch ha)⟩
    exact ⟨fun _ _ => nil_prefix, fun _ _ hne => absurd rfl hne, fun _ _ hinfo => (nomatch hinfo)⟩
  have hstep : ∀ (s : LeaderPartition β) a s', s.Sequences streams →
      SentFrom streams s a ∧ s.SequenceKept a → produceRequests.step s a = some s' →
      s'.Sequences streams :=
    fun _ _ _ h hok hs => h.step hok.1 hok.2 hs
  have hinv := h.invariant hinit hstep
  refine ⟨fun a ha hseq herror => hinv.stored a ha hseq (.inr herror), hinv.unchanged,
    fun a ha hseq herror => hinv.count_eq_one hseq (hinv.stored a ha hseq herror), ?_⟩
  intro x hx y hy hxs hys hp he
  exact hinv.ordered (mem_filter.2 ⟨hx, decide_eq_true ⟨hxs, hp, he⟩⟩)
    (mem_filter.2 ⟨hy, decide_eq_true ⟨hys, rfl, rfl⟩⟩)

end

/-! ## A retry after a failed append -/

namespace ExactlyOnceFixture

def batch (producerId baseSequence : Int) : TxnBatch Unit :=
  ⟨.single 0 (-1) ⟨none, ()⟩, producerId, 0, baseSequence, false, false⟩

/-- Two batches of every producer. -/
def streams (producerId epoch : Int) : ProducerStream Unit :=
  if epoch = 0 then
    { batches := [(batch producerId 0).sent, (batch producerId 1).sent]
      numbered := ⟨rfl, le_refl 0, rfl, le_refl 1, trivial⟩
      fits := (by decide : (2 : Int) < 2 ^ 31) }
  else ⟨[], trivial, by decide⟩

def send (producerId baseSequence : Int) : ProduceAction Unit :=
  .request (batch producerId baseSequence) none 0

end ExactlyOnceFixture

section
open ExactlyOnceFixture

/-- The append of a batch fails after its sequence was accepted; its retry is answered as a
duplicate and the log is empty. -/
theorem duplicate_answered_after_failed_append :
    ¬ ∀ (streams : Int → Int → ProducerStream Unit) (s : LeaderPartition Unit),
      Reaches produceRequests (SentFrom streams) s → ExactlyOnce s := by
  intro h
  obtain ⟨s, hs, hempty, a, ha, hseq, herror⟩ := exists_reaches_of_run produceRequests (SentFrom streams)
    [send 7 0, .validate 0 false, .applyIndex 0, .append 0 .failed, send 7 0, .validate 0 false]
    (fun s => s.log = [] ∧ ∃ a ∈ s.answers, a.batch.Sequenced ∧
      a.error = some .duplicateSequenceNumber) (by decide)
  obtain ⟨b, hb, -⟩ := (h streams s hs).duplicate a ha hseq herror
  rw [hempty] at hb
  cases hb

/-- Two producers interleave, one sends a batch too early and one sends a batch twice. -/
theorem exactlyOnce_with_retry :
    ∃ s : LeaderPartition Unit,
      Reaches produceRequests (fun s a => SentFrom streams s a ∧ s.SequenceKept a) s ∧
      s.log.length = 2 ∧ s.answers.map (·.error) =
        [none, some .outOfOrderSequenceNumber, none, some .duplicateSequenceNumber] ∧
      ExactlyOnce s := by
  obtain ⟨s, hs, hlength, herrors⟩ := exists_reaches_of_run produceRequests
    (fun s a => SentFrom streams s a ∧ s.SequenceKept a)
    [send 7 0, send 8 1, .validate 0 false, .validate 1 false, .applyIndex 0, .append 0 .acknowledged,
      .validate 0 true, send 8 0, send 7 0, .validate 0 false, .applyIndex 0, .append 0 .acknowledged,
      .validate 0 false]
    (fun s => s.log.length = 2 ∧ s.answers.map (·.error) =
      [none, some .outOfOrderSequenceNumber, none, some .duplicateSequenceNumber]) (by decide +kernel)
  exact ⟨s, hs, hlength, herrors, exactlyOnce_of_sequenceKept streams hs⟩

end

end ChronikStream
