import ChronikStream.Lib.Run
import ChronikStream.Produce.LeaderPartition

/-!
# The transaction index and the log it is derived from

The index is to be what `apply_log_batch` makes of the log. A produce request updates it before it
appends, a follower after; a truncation does not touch it, and a restart rebuilds it. It is the
replay of the log where requests reach both in the order of their offsets and what is lost or cut
had left no trace (`IndexKept`, `replay_append_eq_iff`).
-/

namespace ChronikStream

open OffsetRange PartitionTxnState Machine List Option List.Sublist

variable {β : Type*}

/-! ## Batches that leave no trace -/

def firstUndecided (log : List (TxnBatch β)) (p : Int) : Option Int :=
  (log.filter fun b => b.IsTxnData ∧ b.producerId = p ∧ fate log b = none).head?.map (·.baseOffset)

/-- The batches `cut` behind the log `kept` leave the open transactions as they are and abort none. -/
def LeavesNoTrace (kept cut : List (TxnBatch β)) : Prop :=
  (∀ b ∈ cut, 0 ≤ b.producerId →
    firstUndecided (kept ++ cut) b.producerId = firstUndecided kept b.producerId) ∧
  ∀ c ∈ cut, c.marker = some .abort → 0 ≤ c.producerId →
    firstUndecided (kept ++ cut.filter (·.baseOffset < c.baseOffset)) c.producerId = none
deriving Decidable

section
variable {kept cut front back : List (TxnBatch β)} {c : TxnBatch β} {p : Int}

theorem PartitionTxnState.replay_append (kept cut : List (TxnBatch β)) :
    replay (kept ++ cut) = cut.foldl applyLogBatch (replay kept) :=
  foldl_append

theorem get?_ongoing_replay (hasc : Ascending l) (hp : 0 ≤ p) :
    (replay l).ongoing.get? p = firstUndecided l p := by
  have h := tracks_replay hasc hp
  have hmem : ∀ b, b ∈ l.filter (fun b => b.IsTxnData ∧ b.producerId = p ∧ fate l b = none) ↔
      b ∈ l ∧ b.IsTxnData ∧ b.producerId = p ∧ fate l b = none := by
    intro b
    rw [mem_filter, decide_eq_true_iff]
  have hundecided : ∀ f, (replay l).ongoing.get? p = some f → ∃ a ∈ l,
      (a.IsTxnData ∧ a.producerId = p ∧ fate l a = none) ∧ a.baseOffset = f := by
    intro f hf
    obtain ⟨⟨a, ha, had, hap, hbase, hnone⟩, -⟩ := h.undecided_of_opened f hf
    exact ⟨a, ha, ⟨had, hap, hnone⟩, hbase⟩
  have hasc' : Ascending (l.filter fun b => b.IsTxnData ∧ b.producerId = p ∧ fate l b = none) :=
    List.Pairwise.filter _ hasc
  rw [firstUndecided]
  cases hfilter : l.filter (fun b => b.IsTxnData ∧ b.producerId = p ∧ fate l b = none) with
  | nil =>
    rw [head?_nil, map_none, eq_none_iff_forall_ne_some]
    intro f hf
    obtain ⟨a, ha, hu, -⟩ := hundecided f hf
    have := (hmem a).2 ⟨ha, hu⟩
    rw [hfilter] at this
    cases this
  | cons b rest =>
    rw [hfilter] at hmem hasc'
    obtain ⟨hb, hbd, hbp, hbnone⟩ := (hmem b).1 (.head _)
    obtain ⟨f, hf, hle⟩ := h.opened_of_undecided b hb hbd hbp hbnone
    obtain ⟨a, ha, hu, rfl⟩ := hundecided f hf
    have hge : b.baseOffset ≤ a.baseOffset := by
      rcases mem_cons.1 ((hmem a).2 ⟨ha, hu⟩) with rfl | ha
      · exact le_refl _
      have : b.lastOffset < a.baseOffset := rel_of_pairwise_cons hasc' ha
      have := b.baseOffset_le_lastOffset
      omega
    rw [head?_cons, map_some, ← le_antisymm hle hge]
    exact hf

theorem get?_ongoing_replay_append (h : ∀ b ∈ cut, b.producerId ≠ p) :
    (replay (kept ++ cut)).ongoing.get? p = (replay kept).ongoing.get? p := by
  induction cut using List.reverseRecOn with
  | nil => rw [append_nil]
  | append_singleton cut c ih =>
    obtain ⟨hcut, hne⟩ := forall_mem_concat.1 h
    rw [← append_assoc, replay_concat, ← ih hcut]
    exact congrArg ProducerTxns.opened (producer_applyLogBatch_of_ne _ hne)

theorem aborted_applyLogBatch (st : PartitionTxnState) (c : TxnBatch β) :
    (st.applyLogBatch c).aborted = st.aborted ++
      if c.marker = some .abort ∧ 0 ≤ c.producerId then
        ((st.ongoing.get? c.producerId).map (⟨c.producerId, ·⟩)).toList
      else [] := by
  rcases Int.lt_or_le c.producerId 0 with hneg | hpos
  · rw [if_neg fun h => absurd h.2 (by omega), append_nil, applyLogBatch, if_pos hneg]
  rcases st.applyLogBatch_cases c with ⟨hd, heq⟩ | ⟨hm, heq⟩ | ⟨hm, heq⟩ | ⟨heq, hign⟩
  · rw [heq, if_neg fun h => absurd h.1 (by rw [TxnBatch.marker_eq_none hd]; decide), append_nil]
    rfl
  · rw [heq, if_neg fun h => absurd h.1 (by rw [hm]; decide), append_nil]
    rfl
  · rw [heq, if_pos ⟨hm, hpos⟩]
    rfl
  · have hm : c.marker = none := (hign.resolve_left (by omega)).2
    rw [heq, if_neg fun h => absurd h.1 (by rw [hm]; decide), append_nil]

theorem aborted_replay_append (kept cut : List (TxnBatch β)) :
    ∃ new, (replay (kept ++ cut)).aborted = (replay kept).aborted ++ new := by
  induction cut using List.reverseRecOn with
  | nil => exact ⟨[], by rw [append_nil, append_nil]⟩
  | append_singleton cut c ih =>
    obtain ⟨new, hnew⟩ := ih
    rw [← append_assoc, replay_concat, aborted_applyLogBatch, hnew, append_assoc]
    exact ⟨_, rfl⟩

theorem filter_baseOffset_lt (hasc : Ascending (front ++ c :: back)) :
    (front ++ c :: back).filter (·.baseOffset < c.baseOffset) = front := by
  obtain ⟨-, hback, hcross⟩ := pairwise_append.1 hasc
  rw [filter_append, filter_eq_self.2, filter_eq_nil_iff.2, append_nil]
  · intro b hb
    rw [decide_eq_true_iff, not_lt]
    rcases mem_cons.1 hb with rfl | hb
    · exact le_refl _
    have : c.lastOffset < b.baseOffset := rel_of_pairwise_cons hback hb
    have := c.baseOffset_le_lastOffset
    omega
  · intro b hb
    have : b.lastOffset < c.baseOffset := hcross b hb c (.head _)
    have := b.baseOffset_le_lastOffset
    exact decide_eq_true (by omega)

theorem aborted_replay_append_eq (hasc : Ascending (kept ++ cut)) (h : LeavesNoTrace kept cut) :
    (replay (kept ++ cut)).aborted = (replay kept).aborted := by
  -- by induction on the part of the suffix that has been replayed
  suffices haborts : ∀ front back, cut = front ++ back →
      (replay (kept ++ front)).aborted = (replay kept).aborted from
    haborts cut [] (append_nil _).symm
  intro front
  induction front using List.reverseRecOn with
  | nil => exact fun _ _ => by rw [append_nil]
  | append_singleton front c ih =>
    intro back hsplit
    rw [append_assoc, singleton_append] at hsplit
    rw [← append_assoc, replay_concat, aborted_applyLogBatch, ih _ hsplit]
    split
    case isTrue hm =>
      have hnone := h.2 c (hsplit ▸ mem_append_cons_self) hm.1 hm.2
      rw [hsplit] at hasc hnone
      have hasc' : Ascending (kept ++ front) :=
        hasc.sublist (append_left (sublist_append_left ..) kept)
      rw [filter_baseOffset_lt (pairwise_append.1 hasc).2.1] at hnone
      rw [get?_ongoing_replay hasc' hm.2, hnone]
      exact append_nil _
    case isFalse => exact append_nil _

/-- A suffix leaves the index as it is exactly when it neither touches a first undecided batch nor
aborts a transaction. -/
theorem replay_append_eq_iff (hasc : Ascending (kept ++ cut)) :
    replay (kept ++ cut) = replay kept ↔ LeavesNoTrace kept cut := by
  have hkept : Ascending kept := (pairwise_append.1 hasc).1
  constructor
  · intro heq
    refine ⟨fun b _ hp => ?_, fun c hc hm hp => ?_⟩
    · rw [← get?_ongoing_replay hasc hp, heq, get?_ongoing_replay hkept hp]
    · obtain ⟨front, back, rfl⟩ := append_of_mem hc
      rw [filter_baseOffset_lt (pairwise_append.1 hasc).2.1]
      have hasc' : Ascending (kept ++ front) :=
        hasc.sublist (append_left (sublist_append_left ..) kept)
      rw [← get?_ongoing_replay hasc' hp]
      -- an abort that ends a transaction makes the list of aborted ones longer for good
      obtain ⟨new, hnew⟩ := aborted_replay_append kept front
      obtain ⟨later, hlater⟩ := aborted_replay_append (kept ++ front ++ [c]) back
      rw [replay_concat, aborted_applyLogBatch, if_pos ⟨hm, hp⟩, hnew] at hlater
      have hall : kept ++ front ++ [c] ++ back = kept ++ (front ++ c :: back) := by simp
      rw [hall, heq] at hlater
      have hlen := congrArg List.length hlater
      cases hget : (replay (kept ++ front)).ongoing.get? c.producerId with
      | none => rfl
      | some f =>
      rw [hget] at hlen
      simp only [length_append, map_some, toList_some, length_singleton] at hlen
      omega
  · intro h
    have hongoing : (replay (kept ++ cut)).ongoing = (replay kept).ongoing := by
      refine OrderedMap.ext_get? fun p => ?_
      rcases Int.lt_or_le p 0 with hp | hp
      · exact congrArg ProducerTxns.opened
          ((producer_replay_of_neg _ hp).trans (producer_replay_of_neg _ hp).symm)
      by_cases hcut : ∃ b ∈ cut, b.producerId = p
      · obtain ⟨b, hb, rfl⟩ := hcut
        rw [get?_ongoing_replay hasc hp, get?_ongoing_replay hkept hp]
        exact h.1 b hb hp
      · exact get?_ongoing_replay_append fun b hb hbp => hcut ⟨b, hb, hbp⟩
    have haborted := aborted_replay_append_eq hasc h
    cases hall : replay (kept ++ cut)
    cases hold : replay kept
    rw [hall, hold] at hongoing haborted
    cases hongoing
    cases haborted
    rfl

end

/-! ## A replica -/

/-- A replica of a partition. `applying` is a batch that the follower has appended and not yet applied
to the index. -/
structure TxnReplica (β : Type*) where
  leader : LeaderPartition β
  applying : Option (TxnBatch β)

inductive TxnReplicaAction (β : Type*) where
  /-- A step of a produce request; a marker is produced like any other batch. -/
  | produce (a : ProduceAction β)
  /-- `apply_canonical_batch` appends a fetched batch. -/
  | replicate (b : TxnBatch β)
  /-- `apply_canonical_batch` updates the index and the log end. -/
  | observe
  /-- `truncate_partition` cuts the log at a target offset. -/
  | truncate (target : Int)
  /-- The server starts again, and rebuilds the index from the last `window` offsets. -/
  | restart (window : Nat)

namespace TxnReplica

/-- What a truncation keeps: a target inside a batch takes the whole batch. -/
def kept (target : Int) (log : List (TxnBatch β)) : List (TxnBatch β) :=
  log.takeWhile (·.lastOffset < target)

def discarded (target : Int) (log : List (TxnBatch β)) : List (TxnBatch β) :=
  log.dropWhile (·.lastOffset < target)

def logEnd (log : List (TxnBatch β)) : Int :=
  endFrom 0 log

/-- The part of the log that `rebuild_transaction_index_from_wal` reads. -/
def rebuildWindow (window : Nat) (log : List (TxnBatch β)) : List (TxnBatch β) :=
  (log.filter (max 0 (logEnd log - window) ≤ ·.lastOffset)).take window

def step (s : TxnReplica β) : TxnReplicaAction β → Option (TxnReplica β)
  | .produce a => (s.leader.step a).map fun leader => { s with leader := leader }
  | .replicate b =>
    if s.applying = none ∧ logEnd s.leader.log = b.baseOffset then
      some ⟨{ s.leader with log := s.leader.log ++ [b] }, some b⟩
    else none
  | .observe =>
    s.applying.map fun b =>
      ⟨{ s.leader with
        nextOffset := max s.leader.nextOffset (b.lastOffset + 1)
        index := s.leader.index.applyLogBatch b }, none⟩
  | .truncate target =>
    let log := kept target s.leader.log
    some { s with leader := { s.leader with nextOffset := logEnd log, log := log } }
  | .restart window =>
    some ⟨{ s.leader with
      nextOffset := logEnd s.leader.log
      producers := .empty
      index := replay (rebuildWindow window s.leader.log)
      inFlight := [] }, none⟩

/-- No batch is between the index and the log. -/
def Idle (s : TxnReplica β) : Prop :=
  s.applying = none ∧ ∀ r ∈ s.leader.inFlight, r.stage ≠ .indexed
deriving Decidable

end TxnReplica

/-- A replica with an empty log, and everything that can happen to it. -/
def txnReplica : Machine (TxnReplica β) (TxnReplicaAction β) where
  init := ⟨.empty, none⟩
  step := TxnReplica.step

/-- Requests reach index and log in offset order, and a failed append left no trace in the index. -/
def LeaderPartition.IndexKept (s : LeaderPartition β) : ProduceAction β → Prop
  | .request .. => True
  | .validate .. => True
  | .applyIndex i => ∀ r ∈ s.inFlight.take i, r.stage = .indexed
  | .append i outcome =>
    i = 0 ∧ (outcome = .failed → ∀ r ∈ s.inFlight.head?, LeavesNoTrace s.log [r.batch])

instance (s : LeaderPartition β) (a : ProduceAction β) : Decidable (s.IndexKept a) :=
  match a with
  | .request .. => .isTrue trivial
  | .validate .. => .isTrue trivial
  | .applyIndex _ => inferInstanceAs (Decidable (∀ _ ∈ _, _))
  | .append .. => inferInstanceAs (Decidable (_ ∧ (_ → ∀ _ ∈ _, _)))

/-- A replica is leader or follower at a time, a truncation discards what left no trace, and a
restart reads the whole log. -/
def TxnReplica.IndexKept (s : TxnReplica β) : TxnReplicaAction β → Prop
  | .produce a => s.applying = none ∧ s.leader.IndexKept a
  | .replicate _ => s.leader.inFlight = []
  | .observe => True
  | .truncate target => s.leader.inFlight = [] ∧ s.applying = none ∧
    LeavesNoTrace (kept target s.leader.log) (discarded target s.leader.log)
  | .restart window => rebuildWindow window s.leader.log = s.leader.log

instance [DecidableEq β] : DecidableRel (TxnReplica.IndexKept (β := β)) := fun _ _ => by
  unfold TxnReplica.IndexKept
  split <;> infer_instance

/-! ## What the steps keep -/

/-- The batches of the requests that have updated the index. -/
def LeaderPartition.indexedBatches (s : LeaderPartition β) : List (TxnBatch β) :=
  (s.inFlight.filter (·.stage = .indexed)).map (·.batch)

/-- The index is the replay of the log and of the requests that have reached the index. -/
structure LeaderPartition.Indexed (s : LeaderPartition β) : Prop where
  ascending : Ascending (s.log ++ s.inFlight.map (·.batch))
  below : ∀ b ∈ s.log ++ s.inFlight.map (·.batch), b.lastOffset < s.nextOffset
  inOrder : s.inFlight.Pairwise fun r r' => r'.stage = .indexed → r.stage = .indexed
  index : s.index = replay (s.log ++ s.indexedBatches)

section
variable {s s' : LeaderPartition β} {front back : List (ProduceRequest β)} {r r' : ProduceRequest β}

theorem filter_indexed_eq_nil (h : ∀ q ∈ back, q.stage ≠ .indexed) :
    back.filter (·.stage = .indexed) = [] :=
  filter_eq_nil_iff.2 fun q hq => by simpa using h q hq

namespace LeaderPartition.Indexed

theorem of_log {next : Int} {log : List (TxnBatch β)} {producers : ProducerTable}
    {index : PartitionTxnState} {answers : List (ProduceAnswer β)} (hasc : Ascending log)
    (hbelow : ∀ b ∈ log, b.lastOffset < next) (hindex : index = replay log) :
    Indexed ⟨next, producers, index, log, [], answers⟩ where
  ascending := by simpa using hasc
  below := by simpa using hbelow
  inOrder := .nil
  index := by simpa [indexedBatches] using hindex

section
variable (h : s.Indexed)
include h

theorem log_ascending : Ascending s.log :=
  (pairwise_append.1 h.ascending).1

theorem index_eq_of_idle (hidle : ∀ r ∈ s.inFlight, r.stage ≠ .indexed) :
    s.index = replay s.log := by
  rw [h.index, indexedBatches, filter_indexed_eq_nil hidle, map_nil, append_nil]

theorem index_eq_of_nil (hempty : s.inFlight = []) : s.index = replay s.log :=
  h.index_eq_of_idle fun r hr => by rw [hempty] at hr; cases hr

theorem request (batch : TxnBatch β) (transactionalId : Option String)
    (leaderEpoch : Int) : (s.request batch transactionalId leaderEpoch).Indexed where
  ascending := by
    rw [LeaderPartition.request, map_append, ← append_assoc]
    exact pairwise_concat.2 ⟨h.ascending, h.below⟩
  below := by
    rw [LeaderPartition.request, map_append, ← append_assoc]
    refine forall_mem_concat.2 ⟨fun b hb => ?_, ?_⟩
    · have := h.below b hb
      dsimp only
      omega
    · exact Int.sub_one_lt_of_le (le_refl _)
  inOrder := by
    refine pairwise_concat.2 ⟨h.inOrder, fun q _ hstage => ?_⟩
    split at hstage <;> cases hstage
  index := by
    have hnew : (s.request batch transactionalId leaderEpoch).indexedBatches = s.indexedBatches := by
      have hstage : (if batch.Sequenced then ProduceStage.reserved else .validated) ≠ .indexed := by
        split <;> decide
      rw [indexedBatches, indexedBatches, LeaderPartition.request, filter_append,
        filter_cons_of_neg (by simpa using hstage), filter_nil, append_nil]
    rw [hnew]
    exact h.index

variable (hsplit : s.inFlight = front ++ r :: back)
include hsplit

/-- A request that has not reached the index moves on, or goes. -/
theorem unindexed (hr : r.stage ≠ .indexed) (hr' : r'.stage ≠ .indexed) (hbatch : r'.batch = r.batch)
    (hlog : s'.log = s.log) (hnext : s'.nextOffset = s.nextOffset) (hindex : s'.index = s.index)
    (hmoved : s'.inFlight = front ++ r' :: back ∨ s'.inFlight = front ++ back) : s'.Indexed := by
  obtain ⟨hasc, hbelow, horder, hreplay⟩ := h
  rw [indexedBatches, hsplit] at hreplay
  rw [hsplit] at hasc hbelow horder
  have hold : (front ++ r :: back).filter (·.stage = .indexed) =
      (front ++ back).filter (·.stage = .indexed) := by
    rw [filter_append, filter_cons_of_neg (by simpa using hr), filter_append]
  rcases hmoved with hmoved | hmoved
  · have hmap : s'.inFlight.map (·.batch) = (front ++ r :: back).map (·.batch) := by
      rw [hmoved, map_append, map_append, map_cons, map_cons, hbatch]
    refine ⟨by rwa [hlog, hmap], by rwa [hlog, hmap, hnext], ?_, ?_⟩
    · rw [hmoved]
      rw [pairwise_append, pairwise_cons] at horder ⊢
      obtain ⟨hfront, ⟨hhead, hback⟩, hcross⟩ := horder
      refine ⟨hfront, ⟨fun q hq hstage => absurd (hhead q hq hstage) hr, hback⟩, ?_⟩
      intro q hq q' hq' hstage
      rcases mem_cons.1 hq' with rfl | hq'
      · exact absurd hstage hr'
      · exact hcross q hq q' (.tail _ hq') hstage
    · rw [hindex, hreplay, hlog, indexedBatches, hmoved, hold, filter_append,
        filter_append, filter_cons_of_neg (by simpa using hr')]
  · have hsub : (front ++ back).Sublist (front ++ r :: back) :=
      append_left (sublist_cons_self ..) front
    have hsub' := append_left (hsub.map (·.batch)) s.log
    refine ⟨by rw [hlog, hmoved]; exact hasc.sublist hsub', ?_, hmoved ▸ horder.sublist hsub, ?_⟩
    · rw [hlog, hmoved, hnext]
      exact fun b hb => hbelow b (hsub'.subset hb)
    · rw [hindex, hreplay, hlog, indexedBatches, hmoved, hold]

theorem applyIndex (hr : r.stage = .validated) (hfront : ∀ q ∈ front, q.stage = .indexed) :
    Indexed { s with
      index := s.index.applyLogBatch r.batch
      inFlight := front ++ { r with stage := .indexed } :: back } := by
  obtain ⟨hasc, hbelow, horder, hreplay⟩ := h
  rw [indexedBatches, hsplit] at hreplay
  rw [hsplit] at hasc hbelow horder
  rw [pairwise_append, pairwise_cons] at horder
  obtain ⟨hpair, ⟨hhead, hback⟩, -⟩ := horder
  have hunindexed : ∀ q ∈ back, q.stage ≠ .indexed := by
    intro q hq hstage
    have := hhead q hq hstage
    rw [hr] at this
    cases this
  have hfilter : front.filter (·.stage = .indexed) = front :=
    filter_eq_self.2 fun q hq => decide_eq_true (hfront q hq)
  refine ⟨by simpa using hasc, by simpa using hbelow, ?_, ?_⟩
  · refine pairwise_append.2 ⟨hpair, pairwise_cons.2 ⟨fun _ _ _ => rfl, hback⟩, ?_⟩
    exact fun q hq _ _ _ => hfront q hq
  · rw [filter_append, hfilter, filter_cons_of_neg (by rw [hr]; decide),
      filter_indexed_eq_nil hunindexed, append_nil] at hreplay
    rw [indexedBatches, filter_append, hfilter, filter_cons_of_pos (by simp),
      filter_indexed_eq_nil hunindexed, hreplay, ← replay_concat, map_append, append_assoc]
    rfl

end

/-- The request at the front is appended, or its append fails and its batch left no trace. -/
theorem append {answers : List (ProduceAnswer β)} (h : s.Indexed) (hsplit : s.inFlight = r :: back)
    (hr : r.stage = .indexed) [Decidable failed]
    (hfailed : failed → LeavesNoTrace s.log [r.batch]) :
    Indexed { s with
      log := if failed then s.log else s.log ++ [r.batch]
      inFlight := back
      answers := answers } := by
  obtain ⟨hasc, hbelow, horder, hreplay⟩ := h
  rw [indexedBatches, hsplit, filter_cons_of_pos (by simpa using hr), map_cons] at hreplay
  rw [hsplit, map_cons] at hasc hbelow
  rw [hsplit] at horder
  have hback := (pairwise_cons.1 horder).2
  split
  case isTrue hf =>
    have hsub : (s.log ++ back.map (·.batch)).Sublist (s.log ++ r.batch :: back.map (·.batch)) :=
      append_left (sublist_cons_self ..) s.log
    have hneutral : replay (s.log ++ [r.batch]) = replay s.log := by
      refine (replay_append_eq_iff (hasc.sublist ?_)).2 (hfailed hf)
      exact append_left (.cons_cons _ (nil_sublist _)) s.log
    refine ⟨hasc.sublist hsub, fun b hb => hbelow b (hsub.subset hb), hback, ?_⟩
    rw [hreplay, append_cons, replay_append, hneutral, ← replay_append]
    rfl
  case isFalse =>
    rw [append_cons] at hasc hbelow hreplay
    exact ⟨hasc, hbelow, hback, hreplay⟩

theorem step (h : s.Indexed) (hok : s.IndexKept a) (hs : s.step a = some s') : s'.Indexed := by
  cases a with
  | request batch transactionalId leaderEpoch =>
    cases hs
    exact h.request batch transactionalId leaderEpoch
  | validate i expired =>
    obtain ⟨front, r, back, hsplit, -, hr, producers, result, -, hcases⟩ := validate_cases hs
    have hr' : r.stage ≠ .indexed := by rw [hr]; decide
    rcases hcases with ⟨-, rfl⟩ | ⟨e, -, rfl⟩ | ⟨-, -, rfl⟩
    · have hmoved : ({ r with stage := .validated } : ProduceRequest β).stage ≠ .indexed := nofun
      exact h.unindexed hsplit hr' hmoved rfl rfl rfl rfl (.inl rfl)
    · exact h.unindexed hsplit hr' hr' rfl rfl rfl rfl (.inr rfl)
    · exact h.unindexed hsplit hr' hr' rfl rfl rfl rfl (.inl hsplit)
  | applyIndex i =>
    obtain ⟨front, r, back, hsplit, hlen, hr, rfl⟩ := applyIndex_cases hs
    refine h.applyIndex hsplit hr fun q hq => hok q ?_
    rwa [hsplit, ← hlen, take_left]
  | append i outcome =>
    obtain ⟨front, r, back, error, hsplit, hlen, hr, rfl, -⟩ := append_cases hs
    obtain ⟨rfl, hfailed⟩ := hok
    obtain rfl : front = [] := length_eq_zero_iff.1 hlen
    exact h.append hsplit hr fun hf => hfailed hf r (by rw [hsplit]; rfl)

end LeaderPartition.Indexed

end

namespace TxnReplica

variable {s s' : TxnReplica β} {a : TxnReplicaAction β}

/-- While a follower applies a batch, the index lags behind the log by that batch. -/
def Indexed (s : TxnReplica β) : Prop :=
  match s.applying with
  | none => s.leader.Indexed
  | some b => s.leader.inFlight = [] ∧ Ascending s.leader.log ∧
    ∃ log, s.leader.log = log ++ [b] ∧ s.leader.index = replay log

theorem Indexed.log_ascending (h : s.Indexed) : Ascending s.leader.log := by
  rw [Indexed] at h
  split at h
  · exact h.log_ascending
  · exact h.2.1

theorem lastOffset_lt_logEnd (hasc : Ascending log) : ∀ b ∈ log, b.lastOffset < logEnd log :=
  fun _ hb => hasc.last_lt_endFrom (fun b _ => b.baseOffset_le_lastOffset) hb

/-- A follower appends a batch at the end of its log, which the index does not have yet. -/
theorem Indexed.replicate (h : s.leader.Indexed) (hempty : s.leader.inFlight = [])
    (hb : logEnd s.leader.log = b.baseOffset) :
    Indexed ⟨{ s.leader with log := s.leader.log ++ [b] }, some b⟩ := by
  have hasc := h.log_ascending
  refine ⟨hempty, pairwise_concat.2 ⟨hasc, ?_⟩, _, rfl, h.index_eq_of_nil hempty⟩
  intro x hx
  have hlt := lastOffset_lt_logEnd hasc x hx
  rwa [hb] at hlt

theorem Indexed.observe {b : TxnBatch β} (h : s.Indexed) (hb : s.applying = some b) :
    LeaderPartition.Indexed { s.leader with
      index := s.leader.index.applyLogBatch b
      nextOffset := max s.leader.nextOffset (b.lastOffset + 1) } := by
  rw [Indexed, hb] at h
  obtain ⟨hempty, hasc, log, hlog, hindex⟩ := h
  have hbelow : ∀ x ∈ s.leader.log, x.lastOffset < max s.leader.nextOffset (b.lastOffset + 1) := by
    rw [hlog] at hasc ⊢
    have := b.baseOffset_le_lastOffset
    refine forall_mem_concat.2 ⟨fun x hx => ?_, (by omega)⟩
    have := lastOffset_lt_of_concat hasc hx
    omega
  have hreplay : s.leader.index.applyLogBatch b = replay s.leader.log := by
    rw [hindex, hlog, replay_concat]
  dsimp only
  rw [hempty]
  exact .of_log hasc hbelow hreplay

theorem Indexed.truncate {target : Int} (h : s.leader.Indexed) (hempty : s.leader.inFlight = [])
    (htrace : LeavesNoTrace (kept target s.leader.log) (discarded target s.leader.log)) :
    LeaderPartition.Indexed { s.leader with
      log := kept target s.leader.log
      nextOffset := logEnd (kept target s.leader.log) } := by
  have hsplit : kept target s.leader.log ++ discarded target s.leader.log = s.leader.log :=
    takeWhile_append_dropWhile
  have hasc := h.log_ascending
  have hkept : Ascending (kept target s.leader.log) := hasc.sublist (takeWhile_sublist _)
  have hreplay : s.leader.index = replay (kept target s.leader.log) := by
    rw [← hsplit] at hasc
    rw [← (replay_append_eq_iff hasc).2 htrace, hsplit]
    exact h.index_eq_of_nil hempty
  dsimp only
  rw [hempty]
  exact .of_log hkept (lastOffset_lt_logEnd hkept) hreplay

theorem Indexed.step (h : s.Indexed) (hok : s.IndexKept a) (hs : s.step a = some s') :
    s'.Indexed := by
  cases a with
  | produce a =>
    obtain ⟨leader, hleader, rfl⟩ := map_eq_some_iff.1 hs
    obtain ⟨hidle, hok⟩ := hok
    rw [Indexed, hidle] at h ⊢
    exact LeaderPartition.Indexed.step h hok hleader
  | replicate b =>
    rw [TxnReplica.step] at hs
    obtain ⟨hb, rfl⟩ := of_guard hs
    rw [Indexed, hb.1] at h
    exact .replicate h hok hb.2
  | observe =>
    obtain ⟨b, hb, rfl⟩ := map_eq_some_iff.1 hs
    exact h.observe hb
  | truncate target =>
    cases hs
    obtain ⟨hempty, hidle, htrace⟩ := hok
    rw [Indexed, hidle] at h ⊢
    exact Indexed.truncate h hempty htrace
  | restart window =>
    cases hs
    have hwindow : rebuildWindow window s.leader.log = s.leader.log := hok
    have hasc := h.log_ascending
    exact LeaderPartition.Indexed.of_log hasc (lastOffset_lt_logEnd hasc) (by rw [hwindow])

/-- The index is the replay of the log whenever no batch is between the two, so replicas with the
same log have the same last stable offset and aborted transactions. -/
theorem index_eq_replay (h : Reaches txnReplica IndexKept s) (hidle : s.Idle) :
    s.leader.index = replay s.leader.log ∧
      ∀ t : TxnReplica β, Reaches txnReplica IndexKept t → t.Idle → t.leader.log = s.leader.log →
        (∀ highWatermark, s.leader.index.lastStableOffset highWatermark =
          t.leader.index.lastStableOffset highWatermark) ∧
        ∀ upper, s.leader.index.abortedBelow upper = t.leader.index.abortedBelow upper := by
  have hreplay : ∀ t : TxnReplica β, Reaches txnReplica IndexKept t → t.Idle →
      t.leader.index = replay t.leader.log := by
    intro t ht hidle
    have hstep : ∀ (s : TxnReplica β) a s', s.Indexed → s.IndexKept a →
        txnReplica.step s a = some s' → s'.Indexed :=
      fun _ _ _ h hok hs => h.step hok hs
    have hinit : (txnReplica : Machine (TxnReplica β) _).init.Indexed :=
      LeaderPartition.Indexed.of_log .nil (fun _ hb => nomatch hb) rfl
    have hinv := ht.invariant hinit hstep
    rw [Indexed, hidle.1] at hinv
    exact hinv.index_eq_of_idle hidle.2
  refine ⟨hreplay s h hidle, fun t ht htidle hlog => ?_⟩
  have heq : s.leader.index = t.leader.index := by
    rw [hreplay s h hidle, hreplay t ht htidle, hlog]
  exact ⟨fun _ => by rw [heq], fun _ => by rw [heq]⟩

end TxnReplica

/-! ## Runs with failed appends -/

namespace IndexReplayFixture

/-- A batch with one record, as a client or the coordinator sends it. -/
def batch (producerId : Int) (isTransactional isControl : Bool) (key : Option (List UInt8)) :
    TxnBatch Unit :=
  ⟨.single 0 (-1) ⟨key, ()⟩, producerId, 0, 0, isTransactional, isControl⟩

def data : TxnBatch Unit := batch 7 true false none

def abort : TxnBatch Unit := batch 7 true true (some [0, 0, 0, 0])

def plain : TxnBatch Unit := batch (-1) false false none

def produce (b : TxnBatch Unit) (outcome : AppendOutcome) : List (TxnReplicaAction Unit) :=
  [.produce (.request b none 0)] ++
    (if b.Sequenced then [.produce (.validate 0 false)] else []) ++
    [.produce (.applyIndex 0), .produce (.append 0 outcome)]

end IndexReplayFixture

section
open IndexReplayFixture

/-- The append of a transactional batch fails: its transaction stays open in the index, and the log
is empty. -/
theorem transaction_open_after_failed_append :
    ¬ ∀ s : TxnReplica Unit, Reaches txnReplica Always s → s.Idle →
      s.leader.index = replay s.leader.log := by
  intro h
  obtain ⟨s, hs, hidle, hne⟩ := exists_reaches_of_run txnReplica Always (produce data .failed)
    (fun s => s.Idle ∧ s.leader.index ≠ replay s.leader.log) (by decide)
  exact hne (h s hs hidle)

/-- An aborted transaction, a failed append without a transaction, a batch that is replicated and
truncated, and a restart. -/
theorem index_eq_replay_after_abort :
    ∃ s : TxnReplica Unit, Reaches txnReplica TxnReplica.IndexKept s ∧ s.Idle ∧
      s.leader.index.aborted = [⟨7, 0⟩] ∧ s.leader.index = replay s.leader.log := by
  obtain ⟨s, hs, hidle, haborted⟩ := exists_reaches_of_run txnReplica TxnReplica.IndexKept
    (produce data .acknowledged ++ produce abort .acknowledged ++ produce plain .failed ++
      [.replicate (plain.stamp 2 1), .observe, .truncate 2, .restart 1000])
    (fun s => s.Idle ∧ s.leader.index.aborted = [⟨7, 0⟩]) (by decide +kernel)
  exact ⟨s, hs, hidle, haborted, (TxnReplica.index_eq_replay hs hidle).1⟩

end

end ChronikStream
