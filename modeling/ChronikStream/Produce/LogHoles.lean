import ChronikStream.Produce.ExactlyOnce
import ChronikStream.Replication.AcksAll

/-!
# Holes in the log of a partition

A request that is refused, or whose append fails, keeps the offsets it has reserved, and a follower
is refused the batch behind such a hole. `Accounted` is what every step keeps: the offsets below the
log end are shared out among the log, the requests in flight and the batches that were lost.
-/

namespace ChronikStream

open OffsetRange Machine List

variable {β : Type*} {start : Int}

/-! ## A log without holes -/

/-- The batches follow each other up to the log end, and a follower can append them from the end of
any one. -/
structure LeaderPartition.HoleFree (start : Int) (s : LeaderPartition β)
    (ordered : List (TxnBatch β)) : Prop where
  perm : ordered.Perm s.log
  contiguous : ContiguousFrom start ordered
  logEnd : endFrom start ordered = s.nextOffset
  planned : ∀ front back, ordered = front ++ back →
    planBatches (endFrom start front) (back.map (·.toBatch)) =
      some (back.map (·.toBatch))

def LeaderPartition.NoHoles (start : Int) (s : LeaderPartition β) : Prop :=
  ∃ ordered, s.HoleFree start ordered

theorem planBatches_of_contiguousFrom {bs : List (TxnBatch β)} (h : ContiguousFrom start bs) :
    planBatches start (bs.map (·.toBatch)) = some (bs.map (·.toBatch)) := by
  induction bs generalizing start with
  | nil => rfl
  | cons b bs ih =>
    obtain ⟨hbase, hle, hrest⟩ := h
    have hbase : base b.toBatch = start := hbase
    have hle : ¬ last b.toBatch < start := not_lt.2 hle
    rw [map_cons, planBatches, if_neg hle, if_pos hbase]
    exact congrArg (Option.map (b.toBatch :: ·)) (ih hrest)

theorem LeaderPartition.noHoles_of_perm {s : LeaderPartition β}
    (hperm : ordered.Perm s.log) (hcontiguous : ContiguousFrom start ordered)
    (hend : endFrom start ordered = s.nextOffset) : s.NoHoles start := by
  refine ⟨ordered, hperm, hcontiguous, hend, fun front back hsplit => ?_⟩
  rw [hsplit] at hcontiguous
  exact planBatches_of_contiguousFrom (contiguousFrom_append.1 hcontiguous).2

/-! ## What a step loses -/

section
variable (s : LeaderPartition β) (expired : Bool)

/-- A round of the validation ends the request with an error. -/
def LeaderPartition.Refuses (r : ProduceRequest β) : Prop :=
  match (s.producers.validateProducerSequence r.batch r.transactionalId).2 with
  | .accepted => False
  | .rejected _ => True
  | .waiting => expired = true

instance (r : ProduceRequest β) : Decidable (s.Refuses expired r) := by
  unfold LeaderPartition.Refuses
  split <;> infer_instance

/-- No request is refused by the validation and no append fails. -/
def LeaderPartition.NothingLost : ProduceAction β → Prop
  | .validate i expired => ∀ r ∈ s.inFlight[i]?, ¬ s.Refuses expired r
  | .append _ outcome => outcome ≠ .failed
  | _ => True

end

instance : DecidableRel (LeaderPartition.NothingLost (β := β)) := fun _ a =>
  match a with
  | .request .. => .isTrue trivial
  | .validate .. => inferInstanceAs (Decidable (∀ _ ∈ _, _))
  | .applyIndex _ => .isTrue trivial
  | .append .. => inferInstanceAs (Decidable (_ ≠ _))

/-- The offsets from `start` to the log end are shared out among the batches of the log, the
requests in flight and the batches that were lost. -/
def LeaderPartition.Accounted (start : Int) (s : LeaderPartition β) (lost : List (TxnBatch β)) :
    Prop :=
  ∃ ordered, ordered.Perm (s.log ++ (s.inFlight.map (·.batch) ++ lost)) ∧
    ContiguousFrom start ordered ∧ endFrom start ordered = s.nextOffset

namespace LeaderPartition

variable {s s' : LeaderPartition β} {lost : List (TxnBatch β)} {front back : List (ProduceRequest β)}
  {r r' : ProduceRequest β}

section
variable (h : s.Accounted start lost)
include h

theorem Accounted.of_perm (hnext : s'.nextOffset = s.nextOffset)
    (hperm : (s.log ++ (s.inFlight.map (·.batch) ++ lost)).Perm
      (s'.log ++ (s'.inFlight.map (·.batch) ++ lost'))) : s'.Accounted start lost' := by
  obtain ⟨ordered, hordered, hcontiguous, hend⟩ := h
  exact ⟨ordered, hordered.trans hperm, hcontiguous, by rw [hend, hnext]⟩

theorem Accounted.request (batch : TxnBatch β)
    (transactionalId : Option String) (leaderEpoch : Int) :
    (s.request batch transactionalId leaderEpoch).Accounted start lost := by
  obtain ⟨ordered, hordered, hcontiguous, hend⟩ := h
  refine ⟨ordered ++ [batch.stamp s.nextOffset leaderEpoch], ?_,
    contiguousFrom_append.2 ⟨hcontiguous, ?_⟩, ?_⟩
  · rw [LeaderPartition.request, map_append, append_assoc]
    refine (hordered.append_right _).trans ?_
    rw [append_assoc, append_assoc]
    exact (perm_append_comm.append_left _).append_left _
  · rw [hend]
    exact ⟨rfl, (batch.stamp s.nextOffset leaderEpoch).baseOffset_le_lastOffset, trivial⟩
  · rw [endFrom_append]
    show (batch.stamp s.nextOffset leaderEpoch).lastOffset + 1 = s.nextOffset + batch.records.length
    simp only [Batch.lastOffset, TxnBatch.stamp]
    omega

section
variable (hsplit : s.inFlight = front ++ r :: back)
include hsplit

theorem Accounted.moved (hmoved : s'.inFlight = front ++ r' :: back) (hbatch : r'.batch = r.batch)
    (hlog : s'.log = s.log) (hnext : s'.nextOffset = s.nextOffset) : s'.Accounted start lost := by
  refine h.of_perm hnext ?_
  rw [hlog, hsplit, hmoved, map_append, map_append, map_cons, map_cons, hbatch]

theorem Accounted.lose (hlog : s'.log = s.log) (hnext : s'.nextOffset = s.nextOffset)
    (hrest : s'.inFlight = front ++ back) : s'.Accounted start (lost ++ [r.batch]) := by
  refine h.of_perm hnext ?_
  rw [hlog, hsplit, hrest, map_append, map_append]
  refine List.Perm.append_left _ ?_
  rw [← append_assoc]
  refine (perm_middle.append_right _).trans ?_
  exact (perm_append_singleton _ _).symm

theorem Accounted.write (hlog : s'.log = s.log ++ [r.batch]) (hnext : s'.nextOffset = s.nextOffset)
    (hrest : s'.inFlight = front ++ back) : s'.Accounted start lost := by
  refine h.of_perm hnext ?_
  rw [hlog, hsplit, hrest, map_append, map_append, append_assoc s.log]
  exact (perm_middle.append_right _).append_left _

end

/-- A step loses a batch exactly when it refuses a request or fails to append its batch. -/
theorem Accounted.step (hs : s.step a = some s') :
    ∃ new, s'.Accounted start (lost ++ new) ∧ (new = [] ↔ s.NothingLost a) := by
  cases a with
  | request batch transactionalId leaderEpoch =>
    cases hs
    refine ⟨[], ?_, iff_of_true rfl trivial⟩
    rw [append_nil]
    exact h.request batch transactionalId leaderEpoch
  | validate i expired =>
    obtain ⟨front, r, back, hsplit, hlen, hr, producers, result, hcheck, hcases⟩ := validate_cases hs
    have hget : s.inFlight[i]? = some r := by
      rw [hsplit, ← hlen, getElem?_append_right (le_refl _), Nat.sub_self]
      rfl
    have hlost : s.NothingLost (.validate i expired) ↔ ¬ s.Refuses expired r := by
      simp only [NothingLost, hget, Option.mem_some_iff, forall_eq']
    rw [Refuses, hcheck] at hlost
    rcases hcases with ⟨rfl, rfl⟩ | ⟨e, hresult, rfl⟩ | ⟨rfl, rfl, rfl⟩
    · refine ⟨[], ?_, iff_of_true rfl (hlost.2 id)⟩
      rw [append_nil]
      exact h.moved hsplit rfl rfl rfl rfl
    · refine ⟨[r.batch], h.lose hsplit rfl rfl rfl, iff_of_false (cons_ne_nil _ _) ?_⟩
      rw [hlost, not_not]
      rcases hresult with rfl | ⟨rfl, hexpired, -⟩
      · trivial
      · exact hexpired
    · refine ⟨[], ?_, iff_of_true rfl (hlost.2 Bool.false_ne_true)⟩
      rw [append_nil]
      exact h.moved hsplit hsplit rfl rfl rfl
  | applyIndex i =>
    obtain ⟨front, r, back, hsplit, -, -, rfl⟩ := applyIndex_cases hs
    refine ⟨[], ?_, iff_of_true rfl trivial⟩
    rw [append_nil]
    exact h.moved hsplit rfl rfl rfl rfl
  | append i outcome =>
    obtain ⟨front, r, back, error, hsplit, -, -, rfl, -⟩ := append_cases hs
    by_cases hfailed : outcome = .failed
    · refine ⟨[r.batch], h.lose hsplit (if_pos hfailed) rfl rfl, ?_⟩
      exact iff_of_false (cons_ne_nil _ _) (not_not.2 hfailed)
    refine ⟨[], ?_, iff_of_true rfl hfailed⟩
    rw [append_nil]
    exact h.write hsplit (if_neg hfailed) rfl rfl

theorem Accounted.run (hrun : produceRequests.runWith Always s as = some s') :
    ∃ new, s'.Accounted start (lost ++ new) ∧
      (new = [] ↔ produceRequests.runWith NothingLost s as = some s') := by
  induction as generalizing s lost with
  | nil =>
    cases hrun
    exact ⟨[], by rwa [append_nil], iff_of_true rfl rfl⟩
  | cons a as ih =>
    obtain ⟨t, ht, hrest⟩ := Option.bind_eq_some_iff.1 hrun
    obtain ⟨new, hnew, hlost⟩ := h.step ht
    obtain ⟨more, hmore, hrun⟩ := ih hnew hrest
    refine ⟨new ++ more, by rwa [← append_assoc], ?_⟩
    rw [append_eq_nil_iff, hlost, hrun, runWith]
    split
    case isTrue hok => rw [and_iff_right hok, ht, Option.bind_some]
    case isFalse hok => exact iff_of_false (fun hand => hok hand.1) fun h => (by cases h)

/-- Once no request is in flight, the log has a hole wherever a batch was lost. -/
theorem Accounted.noHoles_iff (hdone : s.inFlight = []) : s.NoHoles start ↔ lost = [] := by
  obtain ⟨ordered, hperm, hcontiguous, hend⟩ := h
  rw [hdone, map_nil, nil_append] at hperm
  constructor
  · rintro ⟨stored, hstored, hfree, hstoredEnd, -⟩
    -- the lost batches cover what the log leaves over, which is nothing
    refine eq_nil_of_extent (fun b _ => b.baseOffset_le_lastOffset) ?_
    have hall := extent_perm hperm
    have hlog := extent_perm hstored
    rw [extent_append] at hall
    rw [hcontiguous.endFrom_eq] at hend
    rw [hfree.endFrom_eq] at hstoredEnd
    omega
  · rintro rfl
    rw [append_nil] at hperm
    exact noHoles_of_perm hperm hcontiguous hend

end

end LeaderPartition

/-- When all of any produce requests have been answered, the log is without a hole up to its end if
and only if no step refused a request or failed to append. -/
theorem noHoles_iff_nothingLost {s₀ s : LeaderPartition β} {as : List (ProduceAction β)}
    (hidle : s₀.inFlight = []) (h₀ : s₀.NoHoles start)
    (hrun : produceRequests.runWith Always s₀ as = some s) (hdone : s.inFlight = []) :
    s.NoHoles start ↔ produceRequests.runWith LeaderPartition.NothingLost s₀ as = some s := by
  obtain ⟨ordered, hperm, hcontiguous, hend, -⟩ := h₀
  have haccounted : s₀.Accounted start [] :=
    ⟨ordered, by rwa [hidle, map_nil, append_nil, append_nil], hcontiguous, hend⟩
  obtain ⟨lost, hlost, hiff⟩ := haccounted.run hrun
  rw [← hiff]
  exact hlost.noHoles_iff hdone

/-! ## A duplicate -/

section
open ExactlyOnceFixture

/-- A batch is sent twice; that of another producer comes to lie behind the offset the duplicate had
reserved. -/
theorem hole_after_duplicate :
    ¬ ∀ s : LeaderPartition Unit, Reaches produceRequests Always s → s.inFlight = [] →
      s.NoHoles 0 := by
  intro h
  obtain ⟨s, hs, hp⟩ := exists_reaches_of_run produceRequests Always
    [send 7 0, .validate 0 false, .applyIndex 0, .append 0 .acknowledged, send 7 0,
      .validate 0 false, send 8 0, .validate 0 false, .applyIndex 0, .append 0 .acknowledged]
    (fun s => s.inFlight.isEmpty && s.nextOffset == 3 &&
      s.log.all fun b => ¬ (b.baseOffset ≤ 1 ∧ 1 ≤ b.lastOffset)) (by decide)
  obtain ⟨hp, hlog⟩ := Bool.and_eq_true_iff.1 hp
  obtain ⟨hidle, hnext⟩ := Bool.and_eq_true_iff.1 hp
  obtain ⟨ordered, hperm, hcontiguous, hend, -⟩ := h s hs (List.isEmpty_iff.1 hidle)
  rw [eq_of_beq hnext] at hend
  obtain ⟨b, hb, hbase, hlast⟩ := hcontiguous.exists_mem (x := 1) (by decide) (by rw [hend]; decide)
  exact of_decide_eq_true (all_eq_true.1 hlog b (hperm.subset hb)) ⟨hbase, hlast⟩

/-- Two requests that are written in the opposite order of their offsets leave no hole. -/
theorem noHoles_after_reordered_appends :
    ∃ s : LeaderPartition Unit, s.log.map (·.baseOffset) = [1, 0] ∧ s.NoHoles 0 := by
  have hempty : (LeaderPartition.empty : LeaderPartition Unit).NoHoles 0 :=
    ⟨[], .nil, trivial, rfl, fun front back hsplit => by
      rw [(append_eq_nil_iff.1 hsplit.symm).2]; rfl⟩
  have hrun : ∃ s, produceRequests.runWith LeaderPartition.NothingLost .empty
      [send 7 0, send 8 0, .validate 1 false, .applyIndex 1, .append 1 .unacknowledged,
        .validate 0 false, .applyIndex 0, .append 0 .acknowledged] = some s ∧
      s.inFlight = [] ∧ s.log.map (·.baseOffset) = [1, 0] := ⟨_, rfl, rfl, rfl⟩
  obtain ⟨s, hkept, hdone, hlog⟩ := hrun
  exact ⟨s, hlog, (noHoles_iff_nothingLost rfl hempty (runWith_always hkept) hdone).2 hkept⟩

end

end ChronikStream
