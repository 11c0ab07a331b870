import ChronikStream.Lib.Run
import ChronikStream.Replication.IsrAckTracker
import ChronikStream.Replication.Reconcile

/-!
# acks=all across leadership changes

Produces, follower fetches, elections and reconciliations of one partition. A fetch reports the
follower's log end to the tracker of whatever node it reaches, and nothing ever lowers a report, so
a report from before a truncation can complete a quorum. Under `ReportsKept` every success rests on
`quorum` many replicas that hold the batch at that moment.
-/

namespace ChronikStream

open Machine List Option IsrAckTracker
open Bytes (i64Min)
open OffsetRange (base endFrom last)

variable {ν α : Type*}

/-- A node's replica of the partition. A wait is named by the batch it was registered for. -/
structure Replica (ν α : Type*) where
  log : List (Batch α)
  epochs : LeaderEpochCache
  acks : IsrAckTracker ν (Batch α)

namespace Replica

def logEnd (r : Replica ν α) : Int := endFrom 0 r.log

/-- The log with the batches appended and observed, one after another. -/
def append (r : Replica ν α) (bs : List (Batch α)) : Replica ν α :=
  { r with
    log := r.log ++ bs
    epochs := bs.foldl (fun c b => c.assign b.epoch b.baseOffset) r.epochs }

/-- `truncate_partition`: the log loses a suffix, the epoch history follows. The tracker is not
touched. -/
def truncate (r : Replica ν α) (target : Int) : Replica ν α :=
  { r with
    log := truncateTo target r.log
    epochs := r.epochs.truncateFromEnd (endFrom 0 (truncateTo target r.log)) }

/-- `reconcile_with_leader` against another node's answer. -/
def reconcileWith (r leader : Replica ν α) : Replica ν α :=
  match r.epochs.latestEpoch with
  | none => r
  | some epoch =>
    match planReconciliation 0 (leader.epochs.endOffsetForEpoch epoch leader.logEnd).2 r.logEnd with
    | .truncate target => r.truncate target
    | .resume | .abstain _ => r

end Replica

/-- `plan_batches`: what a log ending at `expected` appends, `none` for a gap or a straddle. -/
def planBatches {ρ : Type*} [OffsetRange ρ] : Int → List ρ → Option (List ρ)
  | _, [] => some []
  | expected, b :: bs =>
    if last b < expected then planBatches expected bs
    else if base b = expected then (planBatches (last b + 1) bs).map (b :: ·)
    else none

/-- A produce is in `appended` until it registers and in `registered` until it records the leader's
own report. `responses` are under way to a follower, `released` the waits the last step answered. -/
structure Cluster (ν α : Type*) where
  replicas : ν → Replica ν α
  leader : ν
  leaderEpoch : Int
  appended : List (ν × Batch α)
  registered : List (ν × Batch α)
  responses : List (ν × List (Batch α))
  released : List (ν × WaitEntry (Batch α))

section
variable [DecidableEq ν]

def withReplica (rs : ν → Replica ν α) (n : ν) (r : Replica ν α) : ν → Replica ν α :=
  Function.update rs n r

def withAcks (rs : ν → Replica ν α) (n : ν) (t : IsrAckTracker ν (Batch α)) : ν → Replica ν α :=
  withReplica rs n { rs n with acks := t }

namespace Cluster

inductive Action (ν α : Type*) where
  /-- A produce on the leader: the batch is stamped, written and observed. -/
  | append (records : List α)
  | register (i quorumSize now : Nat)
  /-- The produce reports the leader's own log end. -/
  | selfAck (i : Nat)
  /-- A fetch reaches `target`: it reports the follower's log end, and the leader answers with the
  next `count` batches. -/
  | fetch (follower target : ν) (count : Nat)
  | apply (i : Nat)
  | elect (node : ν)
  /-- A follower reconciles with the node it takes for the leader. -/
  | reconcile (follower target : ν)
  | cleanupExpired (node : ν) (now timeout : Nat)

def answer (s : Cluster ν α) (m : ν)
    (res : IsrAckTracker ν (Batch α) × List (WaitEntry (Batch α))) : Cluster ν α :=
  { s with replicas := withAcks s.replicas m res.1, released := res.2.map (m, ·) }

def step (s : Cluster ν α) : Action ν α → Option (Cluster ν α)
  | .append records =>
    if h : records ≠ [] then
      let r := s.replicas s.leader
      let batch : Batch α := ⟨r.logEnd, s.leaderEpoch, records, h⟩
      some { s with
        replicas := withReplica s.replicas s.leader (r.append [batch])
        appended := s.appended ++ [(s.leader, batch)]
        released := [] }
    else none
  | .register i quorumSize now =>
    s.appended[i]?.map fun x =>
      { s.answer x.1 ((s.replicas x.1).acks.registerWait (x.2.lastOffset + 1) quorumSize x.2 now) with
        appended := s.appended.eraseIdx i
        registered := s.registered ++ [x] }
  | .selfAck i =>
    s.registered[i]?.map fun x =>
      { s.answer x.1 ((s.replicas x.1).acks.recordAck (x.2.lastOffset + 1) x.1) with
        registered := s.registered.eraseIdx i }
  | .fetch follower target count =>
    if follower = target then none
    else
      let offset := (s.replicas follower).logEnd
      let served := ((s.replicas target).log.dropWhile (·.lastOffset < offset)).take count
      some { s.answer target ((s.replicas target).acks.recordAck offset follower) with
        responses := if target = s.leader then s.responses ++ [(follower, served)] else s.responses }
  | .apply i =>
    s.responses[i]?.map fun x =>
      let r := s.replicas x.1
      { s with
        replicas := withReplica s.replicas x.1 (r.append ((planBatches r.logEnd x.2).getD []))
        responses := s.responses.eraseIdx i
        released := [] }
  | .elect node => some { s with leader := node, leaderEpoch := s.leaderEpoch + 1, released := [] }
  | .reconcile follower target =>
    if follower = target then none
    else
      let r := (s.replicas follower).reconcileWith (s.replicas target)
      some { s with replicas := withReplica s.replicas follower r, released := [] }
  | .cleanupExpired node now timeout =>
    some (s.answer node ((s.replicas node).acks.cleanupExpired now timeout, []))

end Cluster

/-- The machine of a new partition with this first leader. -/
def acksAll (leader : ν) : Machine (Cluster ν α) (Cluster.Action ν α) where
  init := ⟨fun _ => ⟨[], .empty, .new⟩, leader, 0, [], [], [], []⟩
  step := Cluster.step

end

/-! ## What a success means -/

/-- Two logs hold the same batches up to an offset that both reach. -/
def AgreeBelow (k : Int) (l l' : List (Batch α)) : Prop :=
  ∃ p, p <+: l ∧ p <+: l' ∧ k ≤ endFrom 0 p

/-- At least `quorum` replicas hold the batch, and every counted report is about a log that agrees
with that of `m` below it. -/
structure SoundRelease [Fintype ν] [DecidableEq ν] [DecidableEq α] (rs : ν → Replica ν α) (m : ν)
    (w : WaitEntry (Batch α)) : Prop where
  held : w.quorumSize ≤ (Finset.univ.filter fun n => w.tx ∈ (rs n).log).card
  current : ∀ n k, (rs m).acks.nodeOffsets.lookup n = some k → w.tx.lastOffset < k →
    AgreeBelow k (rs n).log (rs m).log

/-- Every wait the last step answered with success is held by its quorum. -/
def Cluster.ReleasesSound [Fintype ν] [DecidableEq ν] [DecidableEq α] (s : Cluster ν α) : Prop :=
  ∀ x ∈ s.released, SoundRelease s.replicas x.1 x.2

section
variable [DecidableEq ν]

/-- A log of node `n` that ends at `e` covers every report of `n`, every report to `n` and every
wait on `n`. -/
structure Covers (rs : ν → Replica ν α) (n : ν) (e : Int) : Prop where
  reported : ∀ m, ∀ k ∈ (rs m).acks.nodeOffsets.lookup n, k ≤ e
  received : ∀ x ∈ (rs n).acks.nodeOffsets.entries, x.2 ≤ e
  waiting : ∀ x ∈ (rs n).acks.waiters.entries, x.1 ≤ e

instance [Fintype ν] (rs : ν → Replica ν α) (n : ν) (e : Int) : Decidable (Covers rs n e) :=
  decidable_of_iff ((∀ m, ∀ k ∈ (rs m).acks.nodeOffsets.lookup n, k ≤ e) ∧
      (∀ x ∈ (rs n).acks.nodeOffsets.entries, x.2 ≤ e) ∧
      ∀ x ∈ (rs n).acks.waiters.entries, x.1 ≤ e)
    ⟨fun h => ⟨h.1, h.2.1, h.2.2⟩, fun h => ⟨h.reported, h.received, h.waiting⟩⟩

/-- A produce registers and reports while its batch is in the log; a follower fetches from a log
that extends its own; a reconciliation leaves what reports and waits are about. -/
def ReportsKept (s : Cluster ν α) : Cluster.Action ν α → Prop
  | .register i _ _ => ∀ x ∈ s.appended[i]?, x.2 ∈ (s.replicas x.1).log
  | .selfAck i => ∀ x ∈ s.registered[i]?, x.2 ∈ (s.replicas x.1).log
  | .fetch follower target _ => (s.replicas follower).log <+: (s.replicas target).log
  | .reconcile follower target =>
    Covers s.replicas follower ((s.replicas follower).reconcileWith (s.replicas target)).logEnd
  | _ => True

instance [Fintype ν] [DecidableEq α] : DecidableRel (ReportsKept : Cluster ν α → _ → Prop) := fun _ _ => by
  unfold ReportsKept
  split <;> infer_instance

end

/-! ## Logs that agree -/

section
variable {t : List (Batch α)} {k : Int}

theorem AgreeBelow.symm (h : AgreeBelow k l l') : AgreeBelow k l' l := by
  obtain ⟨p, hl, hl', hk⟩ := h
  exact ⟨p, hl', hl, hk⟩

theorem AgreeBelow.mono (h : AgreeBelow k l l') (hl : l <+: m)
    (hl' : l' <+: m') : AgreeBelow k m m' := by
  obtain ⟨p, hp, hp', hk⟩ := h
  exact ⟨p, hp.trans hl, hp'.trans hl', hk⟩

theorem AgreeBelow.cut (h : AgreeBelow k l l') (ht : t <+: l) (hk : k ≤ endFrom 0 t) :
    AgreeBelow k t l' := by
  obtain ⟨p, hp, hp', hkp⟩ := h
  rcases prefix_or_prefix_of_prefix hp ht with hpt | htp
  · exact ⟨p, hpt, hp', hkp⟩
  · exact ⟨t, prefix_refl t, htp.trans hp', hk⟩

theorem AgreeBelow.mem (h : AgreeBelow k l l') (hc : Contiguous 0 l') (hb : b ∈ l')
    (hlast : b.lastOffset < k) : b ∈ l := by
  obtain ⟨p, hp, ⟨rest, rfl⟩, hk⟩ := h
  rcases mem_append.1 hb with hb | hb
  · exact hp.subset hb
  have hbase := (contiguous_append.1 hc).2.le_baseOffset b hb
  have := b.baseOffset_le_lastOffset
  omega

theorem contiguous_planBatches (h : planBatches o bs = some applied) : Contiguous o applied := by
  induction bs generalizing o applied with
  | nil => cases h; exact trivial
  | cons b bs ih =>
    rw [planBatches] at h
    split at h
    case isTrue => exact ih h
    case isFalse =>
    obtain ⟨hbase, h⟩ := ite_none_right_eq_some.1 h
    obtain ⟨applied, happlied, rfl⟩ := map_eq_some_iff.1 h
    exact ⟨hbase, hbase ▸ b.baseOffset_le_lastOffset, ih happlied⟩

variable (r leader : Replica ν α)

theorem Replica.reconcileWith_log :
    ∃ target, (r.reconcileWith leader).log = r.log ∨
      (r.reconcileWith leader).log = truncateTo target r.log := by
  rw [Replica.reconcileWith]
  split
  case h_1 => exact ⟨0, .inl rfl⟩
  case h_2 =>
  split
  case h_1 target _ => exact ⟨target, .inr rfl⟩
  case h_2 => exact ⟨0, .inl rfl⟩
  case h_3 => exact ⟨0, .inl rfl⟩

theorem Replica.prefix_reconcileWith : (r.reconcileWith leader).log <+: r.log := by
  obtain ⟨target, h | h⟩ := r.reconcileWith_log leader
  · rw [h]
  · rw [h]
    exact takeWhile_prefix _

theorem Replica.reconcileWith_acks : (r.reconcileWith leader).acks = r.acks := by
  rw [Replica.reconcileWith]
  split
  case h_1 => rfl
  case h_2 => split <;> rfl

end

/-! ## The invariant -/

/-- Every report is about a log that agrees with its node's, and every wait for a batch in it. -/
structure ReportsInv [DecidableEq ν] (rs : ν → Replica ν α) : Prop where
  contiguous : ∀ n, Contiguous 0 (rs n).log
  reports : ∀ m n k, (rs m).acks.nodeOffsets.lookup n = some k →
    AgreeBelow k (rs n).log (rs m).log
  waits : ∀ m o w, (rs m).acks.Waits o w → w.tx ∈ (rs m).log ∧ w.tx.lastOffset + 1 = o

section
variable [DecidableEq ν] {rs : ν → Replica ν α} {m n : ν}

theorem withReplica_self (r : Replica ν α) : withReplica rs n r n = r :=
  Function.update_self ..

theorem withReplica_of_ne (r : Replica ν α) (h : m ≠ n) : withReplica rs n r m = rs m :=
  Function.update_of_ne h ..

section
variable (t : IsrAckTracker ν (Batch α))
include t

theorem withAcks_log : (withAcks rs n t m).log = (rs m).log := by
  rcases eq_or_ne m n with rfl | hne
  · rw [withAcks, withReplica_self]
  · rw [withAcks, withReplica_of_ne _ hne]

theorem withAcks_self : (withAcks rs n t n).acks = t := by
  rw [withAcks, withReplica_self]

theorem withAcks_of_ne (h : m ≠ n) : withAcks rs n t m = rs m :=
  withReplica_of_ne _ h

end

theorem withReplica_acks (h : r.acks = (rs n).acks) :
    (withReplica rs n r m).acks = (rs m).acks := by
  rcases eq_or_ne m n with rfl | hne
  · rw [withReplica_self, h]
  · rw [withReplica_of_ne _ hne]

theorem ReportsInv.append (h : ReportsInv rs)
    (hbs : Contiguous (rs n).logEnd bs) : ReportsInv (withReplica rs n ((rs n).append bs)) := by
  have hacks : ∀ m, (withReplica rs n ((rs n).append bs) m).acks = (rs m).acks :=
    fun m => withReplica_acks rfl
  have hlog : ∀ m, (rs m).log <+: (withReplica rs n ((rs n).append bs) m).log := by
    intro m
    rcases eq_or_ne m n with rfl | hne
    · rw [withReplica_self]
      exact prefix_append _ _
    · rw [withReplica_of_ne _ hne]
  constructor
  case contiguous =>
    intro m
    rcases eq_or_ne m n with rfl | hne
    · rw [withReplica_self]
      exact contiguous_append.2 ⟨h.contiguous m, hbs⟩
    · rw [withReplica_of_ne _ hne]
      exact h.contiguous m
  case reports =>
    intro m n' k hk
    rw [hacks] at hk
    exact (h.reports m n' k hk).mono (hlog n') (hlog m)
  case waits =>
    intro m o w hw
    rw [hacks] at hw
    obtain ⟨hmem, ho⟩ := h.waits m o w hw
    exact ⟨(hlog m).subset hmem, ho⟩

theorem ReportsInv.cut (h : ReportsInv rs) (hr : r.log <+: (rs n).log)
    (hacks : r.acks = (rs n).acks) (hcovers : Covers rs n r.logEnd) :
    ReportsInv (withReplica rs n r) := by
  have hacks : ∀ m, (withReplica rs n r m).acks = (rs m).acks := fun m => withReplica_acks hacks
  have hcont : ∀ m, Contiguous 0 (withReplica rs n r m).log := by
    intro m
    rcases eq_or_ne m n with rfl | hne
    · rw [withReplica_self]
      obtain ⟨rest, hrest⟩ := hr
      have hc := h.contiguous m
      rw [← hrest] at hc
      exact (contiguous_append.1 hc).1
    · rw [withReplica_of_ne _ hne]
      exact h.contiguous m
  constructor
  case contiguous => exact hcont
  case reports =>
    intro m n' k hk
    rw [hacks] at hk
    have hagree := h.reports m n' k hk
    -- first the log of the node that reported, then the log of the node it reported to
    have hcut : AgreeBelow k (withReplica rs n r n').log (rs m).log := by
      rcases eq_or_ne n' n with rfl | hne
      · rw [withReplica_self]
        exact hagree.cut hr (hcovers.reported m k hk)
      · rwa [withReplica_of_ne _ hne]
    rcases eq_or_ne m n with rfl | hne
    · rw [withReplica_self]
      exact (hcut.symm.cut hr (hcovers.received ⟨n', k⟩ (AList.mem_lookup_iff.1 hk))).symm
    · rwa [withReplica_of_ne _ hne]
  case waits =>
    intro m o w hw
    rw [hacks] at hw
    obtain ⟨hmem, ho⟩ := h.waits m o w hw
    refine ⟨?_, ho⟩
    rcases eq_or_ne m n with rfl | hne
    · rw [withReplica_self]
      obtain ⟨ws, hws, -⟩ := hw
      have hle := hcovers.waiting _ hws
      obtain ⟨rest, hrest⟩ := hr
      have hc := h.contiguous m
      rw [← hrest] at hmem hc
      rcases mem_append.1 hmem with hmem | hmem
      · exact hmem
      have := (contiguous_append.1 hc).2.le_baseOffset _ hmem
      have := w.tx.baseOffset_le_lastOffset
      have hle : o ≤ endFrom 0 r.log := hle
      omega
    · rwa [withReplica_of_ne _ hne]

theorem ReportsInv.setAcks (h : ReportsInv rs)
    (hreports : ∀ n k, t.nodeOffsets.lookup n = some k → AgreeBelow k (rs n).log (rs m).log)
    (hwaits : ∀ o w, t.Waits o w → w.tx ∈ (rs m).log ∧ w.tx.lastOffset + 1 = o) :
    ReportsInv (withAcks rs m t) := by
  constructor
  case contiguous =>
    intro n
    rw [withAcks_log]
    exact h.contiguous n
  case reports =>
    intro m' n k hk
    rw [withAcks_log, withAcks_log]
    rcases eq_or_ne m' m with rfl | hne
    · rw [withAcks_self] at hk
      exact hreports n k hk
    · rw [withAcks_of_ne _ hne] at hk
      exact h.reports m' n k hk
  case waits =>
    intro m' o w hw
    rw [withAcks_log]
    rcases eq_or_ne m' m with rfl | hne
    · rw [withAcks_self] at hw
      exact hwaits o w hw
    · rw [withAcks_of_ne _ hne] at hw
      exact h.waits m' o w hw

/-- A success is sound where the reports counted are about logs that agree. -/
theorem ReportsInv.soundRelease [Fintype ν] [DecidableEq α] (h : ReportsInv rs)
    (hmem : w.tx ∈ (rs m).log)
    (hq : w.quorumSize ≤ reached (rs m).acks.nodeOffsets (w.tx.lastOffset + 1)) :
    SoundRelease rs m w where
  held := hq.trans (reached_le_card _ _ fun n k hk hle =>
    (h.reports m n k hk).mem (h.contiguous m) hmem (by omega))
  current n k hk _ := h.reports m n k hk

/-! ## Steps and runs -/

/-- The waits the last step answered are for batches of the node's log, and their quorum has
reported. -/
def Cluster.ReleasesReached (s : Cluster ν α) : Prop :=
  ∀ x ∈ s.released, x.2.tx ∈ (s.replicas x.1).log ∧
    x.2.quorumSize ≤ reached (s.replicas x.1).acks.nodeOffsets (x.2.tx.lastOffset + 1)

variable {s s' : Cluster ν α}

theorem ReportsInv.recordAck (h : ReportsInv s.replicas)
    (hagree : AgreeBelow k (s.replicas n).log (s.replicas m).log) :
    ReportsInv (s.answer m ((s.replicas m).acks.recordAck k n)).replicas ∧
      (s.answer m ((s.replicas m).acks.recordAck k n)).ReleasesReached := by
  have hreports : ∀ n' k', ((s.replicas m).acks.recordAck k n).1.nodeOffsets.lookup n' = some k' →
      AgreeBelow k' (s.replicas n').log (s.replicas m).log := by
    intro n' k' hk'
    rcases lookup_recordAck hk' with hk' | ⟨rfl, rfl | rfl⟩
    · exact h.reports m n' k' hk'
    · exact hagree
    · exact ⟨[], nil_prefix, nil_prefix, by rw [endFrom]; decide⟩
  refine ⟨h.setAcks hreports fun o w hw => h.waits m o w (waits_recordAck hw), ?_⟩
  intro x hx
  obtain ⟨w, hw, rfl⟩ := mem_map.1 hx
  obtain ⟨o, hwait, hq⟩ := mem_recordAck_released hw
  obtain ⟨hmem, rfl⟩ := h.waits m o w hwait
  rw [Cluster.answer, withAcks_log, withAcks_self]
  exact ⟨hmem, hq⟩

theorem ReportsInv.registerWait (h : ReportsInv s.replicas) (hb : b ∈ (s.replicas m).log) :
    ReportsInv
        (s.answer m ((s.replicas m).acks.registerWait (b.lastOffset + 1) quorumSize b now)).replicas ∧
      (s.answer m
        ((s.replicas m).acks.registerWait (b.lastOffset + 1) quorumSize b now)).ReleasesReached := by
  constructor
  · refine h.setAcks (fun n k hk => ?_) fun o w hw => ?_
    · rw [nodeOffsets_registerWait] at hk
      exact h.reports m n k hk
    · rcases waits_registerWait hw with hw | ⟨rfl, rfl⟩
      · exact h.waits m o w hw
      · exact ⟨hb, rfl⟩
  · intro x hx
    obtain ⟨w, hw, rfl⟩ := mem_map.1 hx
    obtain ⟨rfl, hq⟩ := mem_registerWait_released hw
    rw [Cluster.answer, withAcks_log, withAcks_self, nodeOffsets_registerWait]
    exact ⟨hb, hq⟩

theorem reportsInv_init (leader : ν) : ReportsInv
    (acksAll leader : Machine (Cluster ν α) _).init.replicas where
  contiguous _ := trivial
  reports _ _ _ hk := nomatch hk
  waits _ _ _ hw := by
    obtain ⟨_, hws, -⟩ := hw
    cases hws

theorem ReportsInv.step (h : ReportsInv s.replicas) (hok : ReportsKept s a)
    (hs : s.step a = some s') : ReportsInv s'.replicas ∧ s'.ReleasesReached := by
  cases a with
  | append records =>
    rw [Cluster.step] at hs
    obtain ⟨hne, hs⟩ := dite_none_right_eq_some.1 hs
    cases hs
    exact ⟨h.append (contiguous_singleton _), fun _ hx => nomatch hx⟩
  | register i quorumSize now =>
    obtain ⟨x, hx, rfl⟩ := map_eq_some_iff.1 hs
    exact h.registerWait (hok x hx)
  | selfAck i =>
    obtain ⟨x, hx, rfl⟩ := map_eq_some_iff.1 hs
    refine h.recordAck ⟨_, prefix_refl _, prefix_refl _, ?_⟩
    exact (h.contiguous x.1).lastOffset_lt_endFrom x.2 (hok x hx)
  | fetch follower target count =>
    rw [Cluster.step] at hs
    obtain ⟨-, rfl⟩ := of_not_guard hs
    exact h.recordAck ⟨_, prefix_refl _, hok, le_refl _⟩
  | apply i =>
    obtain ⟨x, hx, rfl⟩ := map_eq_some_iff.1 hs
    refine ⟨h.append ?_, fun _ hx => nomatch hx⟩
    cases happlied : planBatches (s.replicas x.1).logEnd x.2 with
    | none => exact trivial
    | some applied => exact contiguous_planBatches happlied
  | elect node =>
    cases hs
    exact ⟨h, fun _ hx => nomatch hx⟩
  | reconcile follower target =>
    rw [Cluster.step] at hs
    obtain ⟨-, rfl⟩ := of_not_guard hs
    exact ⟨h.cut (Replica.prefix_reconcileWith _ _) (Replica.reconcileWith_acks _ _) hok,
      fun _ hx => nomatch hx⟩
  | cleanupExpired node now timeout =>
    cases hs
    exact ⟨h.setAcks (h.reports node) fun o w hw =>
      h.waits node o w (waits_cleanupExpired hw), fun _ hx => nomatch hx⟩

/-- Where followers fetch from logs that extend theirs and no truncation goes below what was
reported or is waited for, every success is held by its quorum at that moment. -/
theorem Cluster.releasesSound_of_reportsKept [Fintype ν] [DecidableEq α] {leader : ν}
    (h : Reaches (acksAll leader) ReportsKept s) : s.ReleasesSound := by
  have hstep : ∀ (s : Cluster ν α) a s', ReportsInv s.replicas ∧ s.ReleasesReached → ReportsKept s a →
      (acksAll leader).step s a = some s' → ReportsInv s'.replicas ∧ s'.ReleasesReached :=
    fun _ _ _ hi hok hs => hi.1.step hok hs
  obtain ⟨hinv, hreached⟩ :=
    h.invariant ⟨reportsInv_init leader, fun _ hx => nomatch hx⟩ hstep
  exact fun x hx => hinv.soundRelease (hreached x hx).1 (hreached x hx).2

end

/-! ## A report from before a truncation -/

namespace AcksAllFixture

/-- Node 0 leads and writes two batches, node 1 copies and reports both, node 2 copies the first. -/
def replicated : List (Cluster.Action (Fin 3) Nat) :=
  [.append [1], .fetch 1 0 1, .apply 0, .fetch 2 0 1, .apply 0, .append [2], .fetch 1 0 1, .apply 0,
    .fetch 1 0 1]

/-- The others truncate to node 2's log; node 0 is elected again and writes a batch of its own at
the offset of the one that is gone. -/
def reelected : List (Cluster.Action (Fin 3) Nat) :=
  replicated ++ [.elect 2, .reconcile 0 2, .reconcile 1 2, .elect 0, .append [3], .register 2 2 0,
    .selfAck 0]

/-- Node 1 is elected, the others reconcile with it, and a batch of its own waits for a quorum of
2, which node 0 completes. -/
def acknowledged : List (Cluster.Action (Fin 3) Nat) :=
  replicated ++ [.elect 1, .reconcile 0 1, .reconcile 2 1, .append [3], .register 2 2 0, .selfAck 0,
    .fetch 0 1 1, .apply 1, .fetch 0 1 1]

end AcksAllFixture

section
open AcksAllFixture

/-- The wait is answered with success though only the leader holds the batch. -/
theorem released_by_report_before_truncation :
    ¬ ∀ s : Cluster (Fin 3) Nat, Reaches (acksAll 0) Always s → s.ReleasesSound := by
  intro h
  obtain ⟨s, hs, hp⟩ := exists_reaches_of_run (acksAll 0) Always reelected
    (fun s => s.released.any fun x =>
      (Finset.univ.filter fun n => x.2.tx ∈ (s.replicas n).log).card < x.2.quorumSize) (by decide)
  obtain ⟨x, hx, hlt⟩ := any_eq_true.1 hp
  exact not_lt.2 (h s hs x hx).held (of_decide_eq_true hlt)

theorem releasesSound_after_election :
    ∃ s : Cluster (Fin 3) Nat, Reaches (acksAll 0) ReportsKept s ∧
      (s.leader = 1 ∧ s.released.length = 1) ∧ s.ReleasesSound :=
  exists_reaches_and (acksAll 0) ReportsKept acknowledged (by decide) fun _ hs =>
    Cluster.releasesSound_of_reportsKept hs

end

end ChronikStream
