import ChronikStream.Replication.Log

/-!
# Epoch reconciliation between a follower and its leader

A follower asks where its latest epoch ended, and `planReconciliation` decides from the answer what
it keeps. The answer carries an offset and no epoch, so an answer about an older epoch is taken for
one about its own. A truncation never reaches into what both logs hold; what is kept is a prefix of
the leader's log exactly when the exchange is `Answerable`.
-/

namespace ChronikStream

open List Option LeaderEpochStore LeaderEpochCache ReplicaLog Batch
open OffsetRange (endFrom)

variable {α : Type*} {start : Nat}

/-- What a follower does with a leader's answer to "where did my epoch end?". -/
inductive ReconcileAction where
  | resume
  | abstain (reason : String)
  | truncate (target : Int)
  deriving DecidableEq, Repr

/-- Decide what to do with one epoch answer. -/
def planReconciliation (errorCode endOffset localLogEnd : Int) : ReconcileAction :=
  if errorCode ≠ 0 then
    .abstain s!"the leader answered the epoch query with error {errorCode}"
  else if endOffset < 0 then
    .abstain "the leader cannot say where our epoch ended"
  else if endOffset ≥ localLogEnd then .resume
  else .truncate endOffset

/-- The error code and end offset of `handle_offset_for_leader_epoch_request`; the epoch is dropped.
-/
def offsetForLeaderEpoch (store : LeaderEpochStore) (topic : String)
    (part epoch logEndOffset : Int) : Int × Int :=
  (0, (store.endOffsetForEpoch topic part epoch logEndOffset).2)

/-- One round of `reconcile_with_leader` for one partition. A follower without epoch history asks
nothing and decides nothing. -/
def reconcile (topic : String) (part : Int) (leader follower : ReplicaLog α start) :
    Option ReconcileAction :=
  ((replay topic part follower.batches).latestEpoch topic part).map fun epoch =>
    let answer := offsetForLeaderEpoch (.replay topic part leader.batches) topic part epoch
      leader.logEnd
    planReconciliation answer.1 answer.2 follower.logEnd

/-- The batches a suffix truncation to `target` leaves of an ordered log: a batch that reaches the
target goes whole. -/
def truncateTo (target : Int) (bs : List (Batch α)) : List (Batch α) :=
  bs.takeWhile (·.lastOffset < target)

/-- What the follower's log is when it fetches again; nothing when the decision does not let it. -/
def ReconcileAction.remaining (bs : List (Batch α)) : ReconcileAction → Option (List (Batch α))
  | .resume => some bs
  | .truncate target => some (truncateTo target bs)
  | .abstain _ => none

/-! ## Truncation of an ordered log -/

theorem truncateTo_of_endFrom_le (hc : Contiguous o bs)
    (h : endFrom o bs ≤ target) : truncateTo target bs = bs := by
  refine takeWhile_eq_self_iff.2 fun b hb => ?_
  have := hc.lastOffset_lt_endFrom b hb
  rw [decide_eq_true_iff]
  omega

theorem Contiguous.truncateTo (hc : Contiguous o bs)
    (target : Int) : Contiguous o (truncateTo target bs) := by
  obtain ⟨post, hp⟩ := takeWhile_prefix (l := bs) (·.lastOffset < target)
  rw [← hp] at hc
  exact (contiguous_append.1 hc).1

/-- What a truncation leaves has at most as many records as there are offsets below the target. -/
theorem length_truncateTo_le (hc : Contiguous o bs)
    (hot : o ≤ target) : o + (logRecords (truncateTo target bs)).length ≤ target := by
  rcases eq_nil_or_concat (truncateTo target bs) with hnil | ⟨init, b, hb⟩
  · simpa [hnil] using hot
  rw [concat_eq_append] at hb
  have hlast : b.lastOffset < target := by
    have hmem : b ∈ ChronikStream.truncateTo target bs := by simp [hb]
    simpa using mem_takeWhile_imp hmem
  have hc' := hc.truncateTo target
  rw [← hc'.endFrom_eq, hb, endFrom_concat]
  omega

/-! ## The leader's answer, read at the logs -/

/-- Its log end, when its last batch has the epoch; the base of its first newer batch, when it has
one at or below the epoch; and undefined otherwise. -/
theorem LeaderEpochCache.endOffset_replay {o : Int} {bs : List (Batch α)} (hc : Contiguous o bs)
    (hm : bs.Pairwise (·.epoch ≤ ·.epoch)) (he : 0 ≤ e) (logEnd : Int) :
    ((∃ b ∈ bs.getLast?, b.epoch = e) ∧
        ((replay bs).endOffsetForEpoch e logEnd).2 = logEnd) ∨
      (∃ n, bs.find? (e < ·.epoch) = some n ∧ (∃ b ∈ bs, 0 ≤ b.epoch ∧ b.epoch ≤ e) ∧
        ((replay bs).endOffsetForEpoch e logEnd).2 = n.baseOffset) ∨
      (((replay bs).endOffsetForEpoch e logEnd).2 = undefinedOffset ∧
        ((∀ b ∈ bs, ¬ (0 ≤ b.epoch ∧ b.epoch ≤ e)) ∨ ∀ b ∈ bs, ¬ e < b.epoch)) := by
  have hlatest := latestEpoch_replay hc hm
  have hnewer := find?_replay_newer hc hm he
  have holder := find?_replay_older (e := e) hc hm
  unfold latestEpoch at hlatest
  unfold endOffsetForEpoch
  rw [if_neg (by omega)]
  cases hl : (replay bs).entries.getLast? with
  | none =>
    refine .inr (.inr ⟨rfl, .inl fun b hb hbe => ?_⟩)
    have := holder.2 ⟨b, hb, hbe⟩
    simp [getLast?_eq_none_iff.1 hl] at this
  | some latest =>
  dsimp only
  split
  · next heq =>
    -- the requested epoch is the leader's own: its last batch carries it
    rw [hl, map_some, Eq.comm, filter_eq_some_iff] at hlatest
    obtain ⟨b, hb, hbe⟩ := map_eq_some_iff.1 hlatest.1
    exact .inl ⟨⟨b, hb, by omega⟩, rfl⟩
  split
  · next p s hp hs =>
    rw [hnewer, map_eq_some_iff] at hs
    obtain ⟨n, hn, rfl⟩ := hs
    exact .inr (.inl ⟨n, hn, holder.1 (by rw [hp]; rfl), rfl⟩)
  next hmiss =>
  refine .inr (.inr ⟨rfl, ?_⟩)
  by_contra hboth
  simp only [not_or, not_forall, not_not] at hboth
  obtain ⟨⟨b, hb, hbe⟩, c, hc, hce⟩ := hboth
  obtain ⟨p, hp⟩ := isSome_iff_exists.1 (holder.2 ⟨b, hb, hbe⟩)
  obtain ⟨n, hn⟩ := isSome_iff_exists.1
    (find?_isSome.2 ⟨c, hc, decide_eq_true hce⟩ : (bs.find? (e < ·.epoch)).isSome)
  rw [hn] at hnewer
  exact hmiss p _ hp hnewer

/-- The follower asks only about a stamped epoch, that of its last batch. -/
theorem latestEpoch_follower {topic : String} {part e : Int} {F : ReplicaLog α start} :
    (replay topic part F.batches).latestEpoch topic part = some e ↔
      0 ≤ e ∧ ∃ b ∈ F.batches.getLast?, b.epoch = e := by
  rw [latestEpoch_eq, historyOf_replay,
    latestEpoch_replay F.contiguous F.monotone, filter_eq_some_iff,
    map_eq_some_iff, decide_eq_true_iff, and_comm]
  rfl

theorem ReplicaLog.epoch_le {F : ReplicaLog α start}
    (h : ∃ b ∈ F.batches.getLast?, b.epoch = e) : ∀ b ∈ F.batches, b.epoch ≤ e := by
  obtain ⟨l, hl, rfl⟩ := h
  intro b hb
  rcases F.monotone.eq_or_of_getLast? hl hb with rfl | hle
  · exact le_rfl
  · exact hle

def answeredEnd (L : ReplicaLog α start) (e : Int) : Int :=
  ((replay L.batches).endOffsetForEpoch e L.logEnd).2

/-- One round of reconciliation, with the two stores replaced by the histories of the partition. -/
theorem reconcile_eq_some : reconcile topic part L F = some a ↔
      ∃ e, (replay topic part F.batches).latestEpoch topic part = some e ∧
        a = planReconciliation 0 (answeredEnd L e) F.logEnd := by
  simp only [reconcile, offsetForLeaderEpoch, map_eq_some_iff,
    endOffsetForEpoch_eq, historyOf_replay, answeredEnd]
  exact exists_congr fun e => and_congr_right fun _ => eq_comm

/-- Resuming is truncating at or above the log end, so both leave the same. -/
theorem remaining_planReconciliation {F : ReplicaLog α start} :
    (planReconciliation 0 endOffset F.logEnd).remaining F.batches = some rest ↔
      0 ≤ endOffset ∧ truncateTo endOffset F.batches = rest := by
  unfold planReconciliation
  rw [if_neg (by simp)]
  split
  case isTrue hneg => exact iff_of_false nofun fun h => absurd h.1 (by omega)
  case isFalse hpos =>
  rw [and_iff_right (by omega)]
  split
  case isTrue hend =>
    rw [truncateTo_of_endFrom_le F.contiguous hend]
    exact some_inj
  case isFalse => exact some_inj

/-! ## A truncation spares what both logs hold -/

theorem split_at_newer {bs : List (Batch α)} (hn : bs.find? (e < ·.epoch) = some n) :
    ∃ pre post, bs = pre ++ n :: post ∧ e < n.epoch ∧ ∀ b ∈ pre, b.epoch ≤ e := by
  obtain ⟨hne, pre, post, hsplit, hpre⟩ := find?_eq_some_iff_append.1 hn
  exact ⟨pre, post, hsplit, by simpa using hne, fun b hb => by simpa using hpre b hb⟩

/-- A common prefix of two contiguous logs ends at or before the base of a batch of the one that is
newer than every batch of the other. -/
theorem commonPrefix_below_newer {L F : ReplicaLog α start}
    (hsplit : L.batches = pre ++ n :: post) (hF : ∀ b ∈ F.batches, b.epoch < n.epoch)
    (hcF : c <+: F.records) (hcL : c <+: L.records) : ∀ r ∈ c, r.offset < n.baseOffset := by
  have hbase : n.baseOffset = start + ((logRecords pre).length : Int) := by
    have hc := L.contiguous
    rw [hsplit] at hc
    rw [hc.baseOffset_eq, (contiguous_append.1 hc).1.endFrom_eq]
  -- a longer common prefix would put the first record of `n` into the other log
  have hlen : c.length ≤ (logRecords pre).length := by
    by_contra hlt
    have hrL := prefix_iff_getElem?.1 hcL (logRecords pre).length (by omega)
    have hrF := hcF.mem (getElem_mem (l := c) (n := (logRecords pre).length) (by omega))
    rw [ReplicaLog.records, hsplit, logRecords_append, logRecords_cons,
      getElem?_append_right le_rfl,
      getElem?_append_left (by simpa using n.length_pos)] at hrL
    obtain ⟨b, hb, hrb⟩ := mem_flatMap.1 hrF
    have h1 := (mem_logRecords hrb).1
    have h2 := (mem_logRecords (mem_of_getElem? hrL)).1
    have := hF b hb
    omega
  intro r hr
  obtain ⟨i, hi, rfl⟩ := mem_iff_getElem.1 hr
  have := L.contiguous.offset_eq (prefix_iff_getElem?.1 hcL i hi)
  omega

/-- **A truncation spares what both logs hold**: every common record is below `target`, and every
batch shared from the start survives. -/
theorem truncation_spares_common_prefix (topic : String) (part : Int) (L F : ReplicaLog α start)
    {target : Int} (h : reconcile topic part L F = some (.truncate target)) :
    (∀ c, c <+: F.records → c <+: L.records → ∀ r ∈ c, r.offset < target) ∧
      ∀ c, c <+: F.batches → c <+: L.batches → c <+: truncateTo target F.batches := by
  obtain ⟨e, he, hplan⟩ := reconcile_eq_some.1 h
  obtain ⟨he0, hlast⟩ := latestEpoch_follower.1 he
  have hrem : (planReconciliation 0 (answeredEnd L e) F.logEnd).remaining F.batches =
      some (truncateTo target F.batches) := by rw [← hplan]; rfl
  obtain ⟨h0, -⟩ := remaining_planReconciliation.1 hrem
  have htarget : target = answeredEnd L e := by
    unfold planReconciliation at hplan
    rw [if_neg (by simp), if_neg (by omega)] at hplan
    split at hplan
    · cases hplan
    · exact (ReconcileAction.truncate.injEq _ _).mp hplan
  have hrec : ∀ c, c <+: F.records → c <+: L.records → ∀ r ∈ c, r.offset < target := by
    intro c hcF hcL
    rw [htarget]
    rcases endOffset_replay L.contiguous L.monotone he0 L.logEnd with
      ⟨-, hend⟩ | ⟨n, hn, -, hend⟩ | ⟨hend, -⟩
    · intro r hr
      rw [answeredEnd, hend]
      exact L.contiguous.offset_lt_endFrom (hcL.mem hr)
    · obtain ⟨pre, post, hsplit, hne, -⟩ := split_at_newer hn
      rw [answeredEnd, hend]
      refine commonPrefix_below_newer hsplit (fun b hb => ?_) hcF hcL
      have := epoch_le hlast b hb
      omega
    · rw [answeredEnd, hend] at h0
      exact absurd h0 (by decide)
  refine ⟨hrec, fun c hcF hcL => ?_⟩
  obtain ⟨q, hq⟩ := hcF
  obtain ⟨q', hq'⟩ := hcL
  have hc : ∀ b ∈ c, b.lastOffset < target := by
    intro b hb
    obtain ⟨r, hr, ho, -⟩ := b.exists_last
    rw [← ho]
    refine hrec (logRecords c) ⟨logRecords q, ?_⟩ ⟨logRecords q', ?_⟩ r
      (mem_flatMap.2 ⟨b, hb, hr⟩)
    · rw [ReplicaLog.records, ← hq, logRecords_append]
    · rw [ReplicaLog.records, ← hq', logRecords_append]
  rw [truncateTo, ← hq, takeWhile_append_of_pos (by simpa using hc)]
  exact prefix_append _ _

/-! ## What the follower keeps

Each epoch has one leader, and `leaderLog e` is the log of the leader of epoch `e` at the end of its
reign. A replica that holds a record of epoch `e` got it, and everything below it, from that leader.
-/

/-- Every record of a log, with all records below it, came from the leader of its epoch. -/
def WrittenBy (leaderLog : Int → List (LogRecord α)) (rs : List (LogRecord α)) : Prop :=
  ∀ i (h : i < rs.length), rs.take (i + 1) <+: leaderLog (rs[i]).epoch

/-- The batches of a log up to a batch of epoch `e` are a prefix of what the leader of `e` held. -/
theorem WrittenBy.logRecords_prefix (h : WrittenBy leaderLog (logRecords bs))
    (hpre : pre ++ [b] <+: bs) : logRecords (pre ++ [b]) <+: leaderLog b.epoch := by
  obtain ⟨post, hpost⟩ := hpre
  have hpos := b.length_pos
  have hrec : logRecords bs = logRecords pre ++ b.logRecords ++ logRecords post := by
    rw [← hpost, logRecords_append, logRecords_append, logRecords_cons, logRecords_nil, append_nil]
  -- the last record of `b` has its epoch, and the records up to it are the given batches
  have hi : (logRecords pre).length + (b.records.length - 1) < (logRecords bs).length := by
    simp only [hrec, length_append, length_logRecords]
    omega
  have hepoch : (logRecords bs)[(logRecords pre).length + (b.records.length - 1)].epoch =
      b.epoch := by
    have hget : (logRecords bs)[(logRecords pre).length + (b.records.length - 1)]? =
        b.logRecords[b.records.length - 1]? := by
      rw [hrec, append_assoc, getElem?_append_right (by omega), Nat.add_sub_cancel_left,
        getElem?_append_left (by rw [length_logRecords]; omega)]
    rw [getElem?_eq_getElem hi, Eq.comm] at hget
    exact (mem_logRecords (mem_of_getElem? hget)).1
  have htake := h _ hi
  have hlen : (logRecords pre ++ b.logRecords).length =
      (logRecords pre).length + (b.records.length - 1) + 1 := by
    simp only [length_append, length_logRecords]
    omega
  rwa [hepoch, hrec, ← hlen, take_left, ← append_nil b.logRecords, ← logRecords_nil,
    ← logRecords_cons, ← logRecords_append] at htake

/-- The leader has the epoch, or nothing older, or nothing newer; or else the last batch of the
follower wholly below the leader's first newer batch is of the epoch the leader has there. -/
def Answerable (L F : ReplicaLog α start) (e : Int) : Prop :=
  L.HasEpoch e ∨ (∀ b ∈ L.batches, ¬ (0 ≤ b.epoch ∧ b.epoch < e)) ∨
    (∀ b ∈ L.batches, ¬ e < b.epoch) ∨
    ∀ n ∈ L.batches.find? (e < ·.epoch), ∀ b ∈ (truncateTo n.baseOffset F.batches).getLast?,
      ∃ c ∈ L.batches, c.epoch = b.epoch ∧ c.baseOffset ≤ b.lastOffset ∧ b.lastOffset ≤ c.lastOffset

section
variable {leaderLog : Int → List (LogRecord α)} {L F : ReplicaLog α start} {e : Int}

/-- Where the leader has the epoch, its batches up to the offset it answers with end with a batch of
the epoch. -/
theorem answeredEnd_eq_endFrom (he0 : 0 ≤ e) (hhas : L.HasEpoch e) (h0 : 0 ≤ answeredEnd L e) :
    ∃ pre b, pre ++ [b] <+: L.batches ∧ b.epoch = e ∧
      answeredEnd L e = endFrom start (pre ++ [b]) := by
  rcases endOffset_replay L.contiguous L.monotone he0 L.logEnd with
    ⟨⟨b, hb, hbe⟩, hend⟩ | ⟨n, hn, -, hend⟩ | ⟨hend, -⟩
  · obtain ⟨init, hinit⟩ := getLast?_eq_some_iff.1 hb
    exact ⟨init, b, hinit ▸ prefix_rfl, hbe, by rw [answeredEnd, hend, ← hinit]; rfl⟩
  · obtain ⟨pre, post, hsplit, hne, hpre⟩ := split_at_newer hn
    obtain ⟨c, hc, hce⟩ := hhas
    have hm := L.monotone
    rw [hsplit] at hc hm
    have hcpre : c ∈ pre := by
      rcases mem_append.1 hc with hc | hc
      · exact hc
      have hmn := (pairwise_append.1 hm).2.1
      rw [pairwise_cons] at hmn
      rcases mem_cons.1 hc with rfl | hc
      · omega
      · have := hmn.1 c hc
        omega
    rcases eq_nil_or_concat pre with rfl | ⟨init, b, rfl⟩
    · cases hcpre
    rw [concat_eq_append] at hsplit hpre hcpre hm
    have hbe : b.epoch = e := by
      have hle := hpre b (by simp)
      rcases mem_append.1 hcpre with hci | hcb
      · have hinit := (pairwise_append.1 (pairwise_append.1 hm).1).2.2 c hci b (by simp)
        omega
      · rw [mem_singleton] at hcb
        rw [← hcb, hce]
    refine ⟨init, b, hsplit ▸ prefix_append _ _, hbe, ?_⟩
    have hc := L.contiguous
    rw [hsplit] at hc
    rw [answeredEnd, hend, hc.baseOffset_eq]
  · rw [answeredEnd, hend] at h0
    exact absurd h0 (by decide)

/-- Both logs are then prefixes of what the leader of that epoch wrote, the leader's up to its
answer. -/
theorem truncateTo_prefix_of_hasEpoch (hL : WrittenBy leaderLog L.records)
    (hF : WrittenBy leaderLog F.records) (he0 : 0 ≤ e)
    (hlast : ∃ b ∈ F.batches.getLast?, b.epoch = e) (hhas : L.HasEpoch e)
    (h0 : 0 ≤ answeredEnd L e) :
    logRecords (truncateTo (answeredEnd L e) F.batches) <+: L.records := by
  obtain ⟨l, hl, rfl⟩ := hlast
  have hFW : F.records <+: leaderLog l.epoch := by
    obtain ⟨init, hinit⟩ := getLast?_eq_some_iff.1 hl
    have := hF.logRecords_prefix (hinit ▸ prefix_rfl : init ++ [l] <+: F.batches)
    rwa [← hinit] at this
  have hrest : logRecords (truncateTo (answeredEnd L l.epoch) F.batches) <+: leaderLog l.epoch := by
    obtain ⟨post, hpost⟩ := takeWhile_prefix (l := F.batches)
      (·.lastOffset < answeredEnd L l.epoch)
    refine List.IsPrefix.trans ⟨logRecords post, ?_⟩ hFW
    rw [truncateTo, ← logRecords_append, hpost, ReplicaLog.records]
  obtain ⟨pre, b, hpre, hbe, hend⟩ := answeredEnd_eq_endFrom he0 hhas h0
  have hLW := hL.logRecords_prefix hpre
  rw [hbe] at hLW
  obtain ⟨post, hpost⟩ := hpre
  have hcpre : Contiguous start (pre ++ [b]) := by
    have hc := L.contiguous
    rw [← hpost] at hc
    exact (contiguous_append.1 hc).1
  have hstart : (start : Int) ≤ answeredEnd L l.epoch := by
    rw [hend, hcpre.endFrom_eq]; omega
  have hle := length_truncateTo_le F.contiguous hstart
  rw [hend, hcpre.endFrom_eq] at hle
  refine (prefix_of_prefix_length_le hrest hLW ?_).trans ⟨logRecords post, ?_⟩
  · rw [hend, hcpre.endFrom_eq]; omega
  · rw [← logRecords_append, hpost, ReplicaLog.records]

/-- The records up to there came from the leader of that epoch on both sides. -/
theorem truncateTo_prefix_of_epoch_agrees (hL : WrittenBy leaderLog L.records)
    (hF : WrittenBy leaderLog F.records) (h : ∀ b ∈ (truncateTo target F.batches).getLast?,
      ∃ c ∈ L.batches, c.epoch = b.epoch ∧ c.baseOffset ≤ b.lastOffset ∧
        b.lastOffset ≤ c.lastOffset) : logRecords (truncateTo target F.batches) <+: L.records := by
  rcases eq_nil_or_concat (truncateTo target F.batches) with hnil | ⟨init, b, hinit⟩
  · rw [hnil]
    exact nil_prefix
  rw [concat_eq_append] at hinit
  obtain ⟨c, hc, hce, -, hlast⟩ := h b (by rw [hinit]; simp)
  obtain ⟨pre, post, hsplit⟩ := append_of_mem hc
  have hpreL : pre ++ [c] <+: L.batches := ⟨post, by rw [hsplit]; simp⟩
  have hLW := hL.logRecords_prefix hpreL
  have hFW := hF.logRecords_prefix (hinit ▸ takeWhile_prefix _ : init ++ [b] <+: F.batches)
  rw [hce] at hLW
  have hcF := F.contiguous.truncateTo target
  have hcL := L.contiguous
  rw [hinit] at hcF
  obtain ⟨q, hq⟩ := hpreL
  rw [← hq] at hcL
  have hlF := hcF.endFrom_eq
  have hlL := (contiguous_append.1 hcL).1.endFrom_eq
  rw [endFrom_concat] at hlF hlL
  rw [hinit]
  refine (prefix_of_prefix_length_le hFW hLW (by omega)).trans ⟨logRecords q, ?_⟩
  rw [← logRecords_append, hq, ReplicaLog.records]

/-- If what the follower keeps is a prefix of the leader's log, the leader has the epoch of its last
batch there. -/
theorem epoch_agrees_of_truncateTo (h : logRecords (truncateTo target F.batches) <+: L.records) :
    ∀ b ∈ (truncateTo target F.batches).getLast?,
      ∃ c ∈ L.batches, c.epoch = b.epoch ∧ c.baseOffset ≤ b.lastOffset ∧
        b.lastOffset ≤ c.lastOffset := by
  intro b hb
  obtain ⟨r, hr, ho, hre⟩ := b.exists_last
  obtain ⟨c, hc, hrc⟩ := mem_flatMap.1 (h.mem (mem_flatMap.2 ⟨b, mem_of_getLast? hb, hr⟩))
  obtain ⟨h1, h2, h3⟩ := mem_logRecords hrc
  exact ⟨c, hc, by omega, by omega, by omega⟩

/-- **Reconciliation leaves a prefix exactly when it is answerable**, for two logs whose epochs each
had one leader. -/
theorem reconcile_leaves_prefix_iff (topic : String) (part : Int)
    (hL : WrittenBy leaderLog L.records) (hF : WrittenBy leaderLog F.records) :
    (∀ a rest, reconcile topic part L F = some a → a.remaining F.batches = some rest →
        logRecords rest <+: L.records) ↔
      ∀ b ∈ F.batches.getLast?, 0 ≤ b.epoch → Answerable L F b.epoch := by
  constructor
  · intro hkeeps b hb he0
    by_contra hnot
    simp only [Answerable, not_or] at hnot
    obtain ⟨hhas, holder, hnewer, hagree⟩ := hnot
    rcases endOffset_replay L.contiguous L.monotone he0 L.logEnd with
      ⟨⟨c, hc, hce⟩, -⟩ | ⟨n, hn, -, hend⟩ | ⟨-, hnone | hnone⟩
    · exact hhas ⟨c, mem_of_getLast? hc, hce⟩
    · -- the leader answers for an older epoch: what is kept ends with a batch it does not have
      refine hagree fun n' hn' => ?_
      obtain rfl : n = n' := some.inj (hn.symm.trans hn')
      have hn0 := L.contiguous.le_baseOffset n (mem_of_find?_eq_some hn)
      have hend : answeredEnd L b.epoch = n.baseOffset := hend
      refine epoch_agrees_of_truncateTo (hkeeps _ _ (reconcile_eq_some.2
        ⟨b.epoch, latestEpoch_follower.2 ⟨he0, b, hb, rfl⟩, rfl⟩)
        (remaining_planReconciliation.2 ⟨?_, ?_⟩))
      · omega
      · rw [hend]
    · exact holder fun c hc hce => hnone c hc ⟨hce.1, hce.2.le⟩
    · exact hnewer hnone
  · intro hans a rest ha hrest
    obtain ⟨e, he, rfl⟩ := reconcile_eq_some.1 ha
    obtain ⟨he0, hlast⟩ := latestEpoch_follower.1 he
    obtain ⟨h0, rfl⟩ := remaining_planReconciliation.1 hrest
    by_cases hhas : L.HasEpoch e
    · exact truncateTo_prefix_of_hasEpoch hL hF he0 hlast hhas h0
    rcases endOffset_replay L.contiguous L.monotone he0 L.logEnd with
      ⟨⟨c, hc, hce⟩, -⟩ | ⟨n, hn, ⟨c, hc, hc0, hce⟩, hend⟩ | ⟨hend, -⟩
    · exact absurd ⟨c, mem_of_getLast? hc, hce⟩ hhas
    · obtain ⟨b, hb, rfl⟩ := hlast
      have hcne : c.epoch ≠ b.epoch := fun h => hhas ⟨c, hc, h⟩
      rcases hans b hb he0 with h | h | h | h
      · exact absurd h hhas
      · exact absurd ⟨hc0, by omega⟩ (h c hc)
      · exact absurd (split_at_newer hn).choose_spec.choose_spec.2.1
          (h n (mem_of_find?_eq_some hn))
      · rw [answeredEnd, hend]
        exact truncateTo_prefix_of_epoch_agrees hL hF (h n hn)
    · rw [answeredEnd, hend] at h0
      exact absurd h0 (by decide)

end

/-! ## A skipped epoch

Node 1 leads epoch 1 and writes two records, of which node 2 has the first when it is elected for
epoch 2 and writes one record nobody copies. Node 1 is elected again for epoch 3 and writes on: its
log never had epoch 2.
-/

namespace ReconcileFixture

/-- The log of node 1, the leader of epochs 1 and 3. -/
def leader : ReplicaLog Nat 0 where
  batches := [⟨0, 1, [10, 11], by decide⟩, ⟨2, 3, [30], by decide⟩]
  contiguous := by decide
  monotone := by decide

/-- The log of node 2, which led epoch 2. -/
def follower : ReplicaLog Nat 0 where
  batches := [⟨0, 1, [10], by decide⟩, ⟨1, 2, [20], by decide⟩]
  contiguous := by decide
  monotone := by decide

/-- The log of node 2 had it copied both records of epoch 1 before it was elected. -/
def caughtUpFollower : ReplicaLog Nat 0 where
  batches := [⟨0, 1, [10, 11], by decide⟩, ⟨2, 2, [20, 21], by decide⟩]
  contiguous := by decide
  monotone := by decide

/-- What the leader of each epoch held at the end of it, with `F` as the log of node 2. -/
def leaderLog (F : ReplicaLog Nat 0) (e : Int) : List (LogRecord Nat) :=
  if e = 1 then leader.records.take 2 else if e = 2 then F.records else leader.records

instance (leaderLog : Int → List (LogRecord Nat)) (rs : List (LogRecord Nat)) :
    Decidable (WrittenBy leaderLog rs) :=
  inferInstanceAs (Decidable (∀ i (h : i < rs.length), rs.take (i + 1) <+: leaderLog (rs[i]).epoch))

end ReconcileFixture

section
open ReconcileFixture

/-- A leader that skipped the follower's epoch answers for an older one, and the follower resumes
with a foreign record. -/
theorem reconcile_keeps_skipped_epoch :
    ¬ ∀ (leaderLog : Int → List (LogRecord Nat)) (L F : ReplicaLog Nat 0),
      WrittenBy leaderLog L.records → WrittenBy leaderLog F.records →
      ∀ a rest, reconcile "orders" 0 L F = some a → a.remaining F.batches = some rest →
        logRecords rest <+: L.records := by
  intro h
  have hkeeps := h (leaderLog follower) leader follower (by decide) (by decide) .resume
    follower.batches (by decide) rfl
  exact absurd hkeeps (by decide)

/-- The same leader and a follower that had copied all of epoch 1: it truncates its record of epoch
2 away and keeps a prefix. -/
theorem reconcile_leaves_prefix_caughtUp :
    WrittenBy (leaderLog caughtUpFollower) leader.records ∧
    WrittenBy (leaderLog caughtUpFollower) caughtUpFollower.records ∧
    ∀ a rest, reconcile "orders" 0 leader caughtUpFollower = some a →
      a.remaining caughtUpFollower.batches = some rest → logRecords rest <+: leader.records := by
  have hL : WrittenBy (leaderLog caughtUpFollower) leader.records := by decide
  have hF : WrittenBy (leaderLog caughtUpFollower) caughtUpFollower.records := by decide
  refine ⟨hL, hF, (reconcile_leaves_prefix_iff "orders" 0 hL hF).2 fun b hb _ => ?_⟩
  refine .inr (.inr (.inr fun n hn c hc => ?_))
  cases hb
  cases hn
  cases hc
  exact ⟨_, .head _, rfl, by decide, by decide⟩

/-- The follower that had copied all of epoch 1 truncates to offset 2, above every shared record. -/
theorem truncation_spares_common_prefix_caughtUp :
    reconcile "orders" 0 leader caughtUpFollower = some (.truncate 2) ∧
    (∀ c, c <+: caughtUpFollower.records → c <+: leader.records → ∀ r ∈ c, r.offset < 2) ∧
      ∀ c, c <+: caughtUpFollower.batches → c <+: leader.batches →
        c <+: truncateTo 2 caughtUpFollower.batches := by
  have h : reconcile "orders" 0 leader caughtUpFollower = some (.truncate 2) := by decide
  exact ⟨h, truncation_spares_common_prefix "orders" 0 leader caughtUpFollower h⟩

end

end ChronikStream
