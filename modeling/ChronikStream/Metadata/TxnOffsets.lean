import ChronikStream.Lib.Run
import ChronikStream.Metadata.EndTxn
import ChronikStream.Metadata.Store

/-!
# The offsets of transactions

`commit_transactional_offsets` commits offsets at once, like plain ones, and EndTxn does not know of
them. So the visible offset of a key is the right one only while no open transaction has an offset
for it, and in runs without aborts, failed writes and other commits to its keys (`Isolated`).
-/

namespace ChronikStream.Metadata

open Machine Slots List Option Function MetadataState

/-! ## The model -/

/-- A loop of `commit_offset` over the offsets of a request: each is logged and then applied to the
memory. -/
structure CommitCall where
  /-- The transactional id of a TxnOffsetCommit. -/
  owner : Option String
  /-- The offset that is appended and not applied yet. -/
  logged : Option ConsumerOffset
  todo : List ConsumerOffset
  deriving DecidableEq

def CommitCall.remaining (c : CommitCall) : List ConsumerOffset := c.logged.toList ++ c.todo

def lastFor (key : String × String × Nat) (offsets : List ConsumerOffset) : Option ConsumerOffset :=
  offsets.reverse.find? (·.key = key)

def EndPhase.request? : EndPhase → Option EndTxnRequest
  | .preparing request _ | .marking request .. | .answered request .. => some request
  | .idle => none

def EndPhase.acked : EndPhase → Bool
  | .answered _ _ .none => true
  | _ => false

def LoggedTransaction.toEvent (e : LoggedTransaction) : MetadataEvent :=
  ⟨0, e.timestampMs * 1000000, .transaction e.transactionalId e.event⟩

def ConsumerOffset.toEvent (o : ConsumerOffset) : MetadataEvent :=
  ⟨0, o.commitTimestamp * 1000000, .offsetCommitted o⟩

/-- A node with its metadata log and the requests in flight. What should be visible is ghost state:
the last plain or committed offset of each key, and those of the open transactions. -/
structure OffsetServer where
  memory : MetadataState
  wal : List MetadataEvent
  calls : List CommitCall
  ends : List EndPhase
  expected : String × String × Nat → Option ConsumerOffset
  pending : List (String × ConsumerOffset)

namespace OffsetServer

variable (nodeId : UInt64) (s : OffsetServer)

/-- The offsets of the open transaction of a transactional id. -/
def pendingOf (tid : String) : List ConsumerOffset :=
  (s.pending.filter (·.1 = tid)).map Prod.snd

/-- `write_and_apply`: an event whose append fails is not applied. -/
def writeAndApply (e : MetadataEvent) (ok : Bool) : OffsetServer :=
  if ok then { s with memory := s.memory.apply e, wal := s.wal ++ [e] } else s

def setCall (j : Nat) (c : CommitCall) : OffsetServer :=
  { s with calls := s.calls.set j c }

def setEnd (j : Nat) (phase : EndPhase) : OffsetServer :=
  { s with ends := s.ends.set j phase }

def resolve (request : EndTxnRequest) : OffsetServer :=
  { s with
    expected :=
      if request.committed then
        fun key => (lastFor key (s.pendingOf request.transactionalId)).or (s.expected key)
      else s.expected
    pending := s.pending.filter (·.1 ≠ request.transactionalId) }

/-- The write of an offset returns. One that fails ends the loop: a TxnOffsetCommit only logs it and
is answered without an error. -/
def appended (j : Nat) (c : CommitCall) (ok : Bool) : Option OffsetServer :=
  match c.logged, c.todo with
  | none, o :: todo => some <|
    if ok then { s.setCall j { c with logged := some o, todo := todo } with wal := s.wal ++ [o.toEvent] }
    else s.setCall j { c with todo := [] }
  | _, _ => none

/-- The offset is applied, with which a plain commit is done. -/
def applied (j : Nat) (c : CommitCall) (o : ConsumerOffset) : OffsetServer :=
  { s.setCall j { c with logged := none } with
    memory := s.memory.apply o.toEvent
    expected := if c.owner = none then update s.expected o.key (some o) else s.expected }

inductive Action where
  | offsetCommit (o : ConsumerOffset)
  | txnOffsetCommit (tid groupId : String) (offsets : List (String × Nat × Int × Option String))
    (nowMs : Int)
  | append (j : Nat) (ok : Bool)
  | apply (j : Nat)
  /-- InitProducerId registers a producer, which drops the open transaction. -/
  | register (tid : String) (producerId producerEpoch timeoutMs nowMs : Int) (ok : Bool)
  | addPartitionsToTxn (tid : String) (producerId producerEpoch : Int) (partitions : List (String × Nat))
    (nowMs : Int) (ok : Bool)
  /-- AddOffsetsToTxn is answered without an error, and changes nothing. -/
  | addOffsetsToTxn (tid : String) (producerId producerEpoch : Int) (groupId : String)
  | endTxn (request : EndTxnRequest)
  | prepare (j : Nat) (nowMs : Int) (ok : Bool)
  | writeMarker (j : Nat) (partition : String × Nat)
  | finalize (j : Nat) (nowMs : Int) (ok : Bool)
  | restart
  deriving DecidableEq

def consumerOffsets (groupId : String) (nowMs : Int)
    (offsets : List (String × Nat × Int × Option String)) : List ConsumerOffset :=
  offsets.map fun (topic, partition, offset, metadata) => ⟨groupId, topic, partition, offset, metadata, nowMs⟩

def step : Action → Option OffsetServer
  | .offsetCommit o => some { s with calls := s.calls ++ [⟨none, none, [o]⟩] }
  | .txnOffsetCommit tid groupId offsets nowMs => some
    { s with
      calls := s.calls ++ [⟨some tid, none, consumerOffsets groupId nowMs offsets⟩]
      pending := s.pending ++ (consumerOffsets groupId nowMs offsets).map (tid, ·) }
  | .append j ok => s.calls[j]?.bind fun c => s.appended j c ok
  | .apply j => s.calls[j]?.bind fun c => c.logged.map fun o => s.applied j c o
  | .register tid producerId producerEpoch timeoutMs nowMs ok =>
    let s := s.writeAndApply (registration tid producerId producerEpoch timeoutMs nowMs).toEvent ok
    some (if ok then { s with pending := s.pending.filter (·.1 ≠ tid) } else s)
  | .addPartitionsToTxn tid producerId producerEpoch partitions nowMs ok =>
    let e : LoggedTransaction :=
      ⟨tid, nowMs, .addPartitionsToTransaction producerId producerEpoch partitions⟩
    some (s.writeAndApply e.toEvent ok)
  | .addOffsetsToTxn .. => some s
  | .endTxn request =>
    let phase := EndPhase.lookup s.memory.coordinator request
    let s := { s with ends := s.ends ++ [phase] }
    some (if phase.acked then s.resolve request else s)
  | .prepare j nowMs ok =>
    match s.ends[j]? with
    | some (.preparing request partitions) => some
      ((s.writeAndApply (request.prepareEvent nowMs).toEvent ok).setEnd j
        (.marking request partitions partitions))
    | _ => none
  | .writeMarker j partition =>
    match s.ends[j]? with
    | some (.marking request partitions pending) =>
      if partition ∈ pending then
        some (s.setEnd j (.marking request partitions (pending.erase partition)))
      else none
    | _ => none
  | .finalize j nowMs ok =>
    match s.ends[j]? with
    | some (.marking request partitions pending) =>
      if pending = ∅ then
        let s := (s.writeAndApply (request.finalEvent nowMs).toEvent ok).setEnd j
          (.finalized request partitions ok)
        some (if ok then s.resolve request else s)
      else none
    | _ => none
  | .restart => some
    { s with
      memory := (new nodeId).replayEvents s.wal
      calls := []
      ends := [] }

def machine : Machine OffsetServer Action where
  init := ⟨.new nodeId, [], [], [], fun _ => none, []⟩
  step := step nodeId

/-- No request has still to write an offset for the key. -/
def Idle (key : String × String × Nat) : Prop :=
  ∀ c ∈ s.calls, ∀ x ∈ c.remaining, x.key ≠ key
deriving Decidable

/-- A transaction is ended with a commit, or had no offsets, and all its offsets are written. -/
def Resolvable (request : EndTxnRequest) : Prop :=
  (request.committed = true ∨ s.pendingOf request.transactionalId = []) ∧
    ∀ c ∈ s.calls, c.owner = some request.transactionalId → c.remaining = []
deriving Decidable

/-- No commit writes to a key that an open transaction of another id or a request in flight writes
to, the writes of a TxnOffsetCommit succeed, a transaction with offsets is not aborted and is
committed when they are written, and a restart finds no request in flight. -/
def Isolated : Action → Prop
  | .offsetCommit o => (∀ p ∈ s.pending, p.2.key ≠ o.key) ∧ s.Idle o.key
  | .txnOffsetCommit tid groupId offsets nowMs => ∀ o ∈ consumerOffsets groupId nowMs offsets,
    (∀ p ∈ s.pending, p.2.key = o.key → p.1 = tid) ∧ s.Idle o.key
  | .append j ok => ∀ c ∈ s.calls[j]?, c.owner ≠ none → ok = true
  | .register tid _ _ _ _ ok => ok = true → s.pendingOf tid = []
  | .endTxn request => (EndPhase.lookup s.memory.coordinator request).acked = true → s.Resolvable request
  | .finalize j _ ok => ok = true → ∀ phase ∈ s.ends[j]?, ∀ request ∈ phase.request?, s.Resolvable request
  | .restart => ∀ c ∈ s.calls, c.remaining = []
  | _ => True

instance : DecidableRel Isolated := fun _ _ => by
  unfold Isolated
  split <;> infer_instance

end OffsetServer

/-! ## The last offset for a key -/

section

theorem lastFor_append (key : String × String × Nat) (l l' : List ConsumerOffset) :
    lastFor key (l ++ l') = (lastFor key l').or (lastFor key l) := by
  rw [lastFor, reverse_append, find?_append]
  rfl

theorem lastFor_eq_none : lastFor key l = none ↔ ∀ x ∈ l, x.key ≠ key := by
  simp [lastFor, find?_eq_none]

theorem lastFor_singleton (x : ConsumerOffset) : lastFor x.key [x] = some x := by
  simp [lastFor]

theorem lastFor_append_of_mem (l : List ConsumerOffset) (hx : x ∈ l') :
    lastFor x.key (l ++ l') = lastFor x.key l' := by
  rw [lastFor_append]
  cases h : lastFor x.key l' with
  | none => exact absurd rfl (lastFor_eq_none.1 h x hx)
  | some y => rfl

theorem lastFor_cons_of_ne (hx : x.key ≠ key) : lastFor key (x :: l) = lastFor key l := by
  rw [← singleton_append, lastFor_append, lastFor_eq_none.2 (forall_mem_singleton.2 hx), or_none]

theorem lastFor_map_filter {pending : List (String × ConsumerOffset)}
    (h : ∀ x ∈ pending, x.2.key = key → p x) :
    lastFor key ((pending.filter p).map Prod.snd) = lastFor key (pending.map Prod.snd) := by
  induction pending with
  | nil => rfl
  | cons x pending ih =>
    have hrest := ih fun y hy => h y (.tail _ hy)
    rw [filter_cons]
    split
    case isTrue =>
      rw [map_cons, ← singleton_append, lastFor_append, hrest, ← lastFor_append]
      rfl
    case isFalse hx =>
      rw [hrest, map_cons, lastFor_cons_of_ne fun hkey => hx (h x (.head _) hkey)]

end

/-! ## The invariant -/

/-- The offset that is visible for a key: the last one of an open transaction, or the expected one.
-/
def target (expected : String × String × Nat → Option ConsumerOffset)
    (pending : List (String × ConsumerOffset)) (key : String × String × Nat) : Option ConsumerOffset :=
  (lastFor key (pending.map Prod.snd)).or (expected key)

/-- The offsets in memory and those of a replay, beside the ghost state and the requests in flight.
-/
structure Consistent (visible replayed expected : String × String × Nat → Option ConsumerOffset)
    (calls : List CommitCall) (pending : List (String × ConsumerOffset)) : Prop where
  idle : ∀ key, (∀ c ∈ calls, ∀ x ∈ c.remaining, x.key ≠ key) →
    visible key = target expected pending key ∧ replayed key = target expected pending key
  sameOwner : ∀ p ∈ pending, ∀ q ∈ pending, p.2.key = q.2.key → p.1 = q.1
  exclusive : calls.Pairwise fun c d => ∀ x ∈ c.remaining, ∀ y ∈ d.remaining, x.key ≠ y.key
  ofTxn : ∀ c ∈ calls, ∀ tid ∈ c.owner, ∀ x ∈ c.remaining,
    lastFor x.key (pending.map Prod.snd) = lastFor x.key c.remaining ∧
      ∀ p ∈ pending, p.2.key = x.key → p.1 = tid
  ofPlain : ∀ c ∈ calls, c.owner = none → c.remaining.length ≤ 1 ∧ ∀ x ∈ c.remaining,
    (∀ p ∈ pending, p.2.key ≠ x.key) ∧
      (c.logged = none → visible x.key = expected x.key ∧ replayed x.key = expected x.key)
  logged : ∀ c ∈ calls, ∀ o ∈ c.logged, replayed o.key = some o

namespace Consistent

section

theorem target_of_not_mem (h : ∀ p ∈ pending, p.2.key ≠ key) :
    target expected pending key = expected key := by
  have hnone : lastFor key (pending.map Prod.snd) = none := by
    refine lastFor_eq_none.2 fun x hx => ?_
    obtain ⟨p, hp, rfl⟩ := mem_map.1 hx
    exact h p hp
  rw [target, hnone, none_or]

section
variable (h : Consistent visible replayed expected calls pending)
include h

theorem offsetCommit (hpending : ∀ p ∈ pending, p.2.key ≠ o.key)
    (hidle : ∀ c ∈ calls, ∀ x ∈ c.remaining, x.key ≠ o.key) :
    Consistent visible replayed expected (calls ++ [⟨none, none, [o]⟩]) pending := by
  constructor
  case idle => exact fun key hkey => h.idle key fun c hc => hkey c (mem_append_left _ hc)
  case sameOwner => exact h.sameOwner
  case exclusive =>
    refine pairwise_concat.2 ⟨h.exclusive, ?_⟩
    intro c hc x hx y hy
    cases mem_singleton.1 hy
    exact hidle c hc x hx
  case ofTxn =>
    rw [forall_mem_concat]
    refine ⟨h.ofTxn, fun tid htid => ?_⟩
    cases htid
  case ofPlain =>
    rw [forall_mem_concat]
    refine ⟨h.ofPlain, fun _ => ⟨le_refl _, fun x hx => ?_⟩⟩
    cases mem_singleton.1 hx
    have hvisible := h.idle o.key hidle
    rw [target_of_not_mem hpending] at hvisible
    exact ⟨hpending, fun _ => hvisible⟩
  case logged =>
    rw [forall_mem_concat]
    refine ⟨h.logged, fun x hx => ?_⟩
    cases hx

theorem txnOffsetCommit (howner : ∀ o ∈ offsets, ∀ p ∈ pending, p.2.key = o.key → p.1 = tid)
    (hidle : ∀ o ∈ offsets, ∀ c ∈ calls, ∀ x ∈ c.remaining, x.key ≠ o.key) :
    Consistent visible replayed expected (calls ++ [⟨some tid, none, offsets⟩])
      (pending ++ offsets.map (tid, ·)) := by
  have hpending : (pending ++ offsets.map (tid, ·)).map Prod.snd = pending.map Prod.snd ++ offsets := by
    rw [map_append, List.map_map]
    exact congrArg _ (map_id _)
  have hnew : ∀ p ∈ offsets.map (tid, ·), p.1 = tid ∧ p.2 ∈ offsets := by
    intro p hp
    obtain ⟨o, ho, rfl⟩ := mem_map.1 hp
    exact ⟨rfl, ho⟩
  -- Where no new offset is for the key, the last one is as before.
  have hold : ∀ key, (∀ o ∈ offsets, o.key ≠ key) →
      lastFor key ((pending ++ offsets.map (tid, ·)).map Prod.snd) =
        lastFor key (pending.map Prod.snd) := by
    intro key hkey
    rw [hpending, lastFor_append, lastFor_eq_none.2 hkey, none_or]
  constructor
  case idle =>
    intro key hkey
    rw [forall_mem_concat] at hkey
    rw [target, hold key hkey.2]
    exact h.idle key hkey.1
  case sameOwner =>
    intro p hp q hq hkey
    rcases mem_append.1 hp with hp | hp
    · rcases mem_append.1 hq with hq | hq
      · exact h.sameOwner p hp q hq hkey
      obtain ⟨hq, hmem⟩ := hnew q hq
      rw [hq]
      exact howner _ hmem p hp hkey
    · obtain ⟨hp, hmem⟩ := hnew p hp
      rw [hp]
      rcases mem_append.1 hq with hq | hq
      · exact (howner _ hmem q hq hkey.symm).symm
      · exact (hnew q hq).1.symm
  case exclusive =>
    refine pairwise_concat.2 ⟨h.exclusive, ?_⟩
    intro c hc x hx y hy
    exact hidle y hy c hc x hx
  case ofTxn =>
    rw [forall_mem_concat]
    constructor
    · intro c hc tid' htid' x hx
      obtain ⟨hlast, howner'⟩ := h.ofTxn c hc tid' htid' x hx
      have hother : ∀ o ∈ offsets, o.key ≠ x.key := fun o ho heq => hidle o ho c hc x hx heq.symm
      refine ⟨(hold x.key hother).trans hlast, fun p hp hkey => ?_⟩
      rcases mem_append.1 hp with hp | hp
      · exact howner' p hp hkey
      · exact absurd hkey (hother _ (hnew p hp).2)
    · intro tid' htid' x hx
      cases htid'
      refine ⟨?_, fun p hp hkey => ?_⟩
      · rw [hpending]
        exact lastFor_append_of_mem _ hx
      · rcases mem_append.1 hp with hp | hp
        · exact howner x hx p hp hkey
        · exact (hnew p hp).1
  case ofPlain =>
    rw [forall_mem_concat]
    refine ⟨fun c hc hplain => ?_, fun hplain => by cases hplain⟩
    obtain ⟨hlen, hremaining⟩ := h.ofPlain c hc hplain
    refine ⟨hlen, fun x hx => ⟨fun p hp => ?_, (hremaining x hx).2⟩⟩
    rcases mem_append.1 hp with hp | hp
    · exact (hremaining x hx).1 p hp
    · exact fun heq => hidle _ (hnew p hp).2 c hc x hx heq.symm
  case logged =>
    rw [forall_mem_concat]
    refine ⟨h.logged, fun x hx => ?_⟩
    cases hx

end

section
variable (h : Consistent visible replayed expected (before ++ c :: behind) pending)
include h

theorem other_key :
    ∀ d ∈ before ++ behind, ∀ x ∈ c.remaining, ∀ y ∈ d.remaining, y.key ≠ x.key := by
  obtain ⟨-, hcafter, hbefore⟩ := pairwise_append.1 h.exclusive
  intro d hd x hx y hy
  rcases mem_append.1 hd with hd | hd
  · exact hbefore d hd c (.head _) y hy x hx
  · exact ((pairwise_cons.1 hcafter).1 d hd x hx y hy).symm

theorem exclusive_replace (hsub : c'.remaining ⊆ c.remaining) :
    (before ++ c' :: behind).Pairwise fun c d => ∀ x ∈ c.remaining, ∀ y ∈ d.remaining, x.key ≠ y.key :=
  pairwise_replace h.exclusive (fun _ hd x hx y hy => hd x hx y (hsub hy))
    fun _ hd x hx => hd x (hsub hx)

theorem append (hlogged : c.logged = none) (htodo : c.todo = o :: todo) :
    Consistent visible (update replayed o.key (some o)) expected
      (before ++ { c with logged := some o, todo := todo } :: behind) pending := by
  have hsame : CommitCall.remaining { c with logged := some o, todo := todo } = c.remaining := by
    rw [CommitCall.remaining, CommitCall.remaining, hlogged, htodo]
    rfl
  have ho : o ∈ c.remaining := by
    rw [← hsame]
    exact .head _
  have hother : ∀ d ∈ before ++ behind, ∀ y ∈ d.remaining,
      update replayed o.key (some o) y.key = replayed y.key := fun d hd y hy =>
    update_of_ne (h.other_key d hd o ho y hy) _ _
  constructor
  case idle =>
    intro key hkey
    have hne : key ≠ o.key := fun heq =>
      hkey _ mem_append_cons_self o (.head _) heq.symm
    rw [update_of_ne hne]
    refine h.idle key (forall_replace (fun d hd => hkey d (mem_of_mem_others hd)) ?_)
    rw [← hsame]
    exact hkey _ mem_append_cons_self
  case sameOwner => exact h.sameOwner
  case exclusive => exact h.exclusive_replace (hsame ▸ List.Subset.refl _)
  case ofTxn =>
    refine forall_replace (fun d hd => h.ofTxn d (mem_of_mem_others hd)) ?_
    rw [hsame]
    exact h.ofTxn c mem_append_cons_self
  case ofPlain =>
    refine forall_replace (fun d hd hplain => ?_) fun hplain => ?_
    · obtain ⟨hlen, hremaining⟩ := h.ofPlain d (mem_of_mem_others hd) hplain
      refine ⟨hlen, fun x hx => ?_⟩
      rw [hother d hd x hx]
      exact hremaining x hx
    · obtain ⟨hlen, hremaining⟩ := h.ofPlain c mem_append_cons_self hplain
      rw [hsame]
      exact ⟨hlen, fun x hx => ⟨(hremaining x hx).1, fun hnone => by cases hnone⟩⟩
  case logged =>
    refine forall_replace (fun d hd y hy => ?_) fun y hy => ?_
    · rw [hother d hd y (mem_append_left _ (mem_toList.2 hy))]
      exact h.logged d (mem_of_mem_others hd) y hy
    · cases hy
      exact update_self _ _ _

theorem appendFails (hplain : c.owner = none) (hlogged : c.logged = none)
    (htodo : c.todo = o :: todo) :
    Consistent visible replayed expected (before ++ { c with todo := [] } :: behind) pending := by
  have hnil : CommitCall.remaining { c with todo := [] } = [] := by
    rw [hlogged]
    rfl
  obtain ⟨hlen, hremaining⟩ := h.ofPlain c mem_append_cons_self hplain
  have hone : c.remaining = [o] := by
    rw [CommitCall.remaining, hlogged, htodo] at hlen ⊢
    cases todo with
    | nil => rfl
    | cons x todo => exact absurd hlen (by simp)
  have hnone : ∀ x, x ∉ CommitCall.remaining { c with todo := [] } := by
    rw [hnil]
    exact fun x => not_mem_nil
  constructor
  case idle =>
    intro key hkey
    by_cases heq : o.key = key
    · obtain ⟨hpending, hvisible⟩ := hremaining o (hone ▸ .head _)
      rw [← heq, target_of_not_mem hpending]
      exact hvisible hlogged
    · refine h.idle key (forall_replace (fun d hd => hkey d (mem_of_mem_others hd)) ?_)
      rw [hone, forall_mem_singleton]
      exact heq
  case sameOwner => exact h.sameOwner
  case exclusive =>
    refine h.exclusive_replace ?_
    rw [hnil]
    exact nil_subset _
  case ofTxn =>
    exact forall_replace (fun d hd => h.ofTxn d (mem_of_mem_others hd)) fun _ _ x hx => absurd hx (hnone x)
  case ofPlain =>
    refine forall_replace (fun d hd => h.ofPlain d (mem_of_mem_others hd)) fun _ => ⟨?_, fun x hx => ?_⟩
    · rw [hnil]
      exact Nat.zero_le _
    · exact absurd hx (hnone x)
  case logged =>
    refine forall_replace (fun d hd => h.logged d (mem_of_mem_others hd)) fun y hy => ?_
    exact h.logged c mem_append_cons_self y hy

theorem apply (hlogged : c.logged = some o) :
    Consistent (update visible o.key (some o)) replayed
      (if c.owner = none then update expected o.key (some o) else expected)
      (before ++ { c with logged := none } :: behind) pending := by
  have hmem : c ∈ before ++ c :: behind := mem_append_cons_self
  have hremaining : c.remaining = o :: c.todo := by
    rw [CommitCall.remaining, hlogged]
    rfl
  have ho : o ∈ c.remaining := hremaining ▸ .head _
  have hexpected : ∀ key, key ≠ o.key →
      (if c.owner = none then update expected o.key (some o) else expected) key =
        expected key := by
    intro key hne
    split
    · exact update_of_ne hne _ _
    · rfl
  constructor
  case idle =>
    intro key hkey
    have htodo : ∀ x ∈ c.todo, x.key ≠ key := hkey _ mem_append_cons_self
    by_cases heq : key = o.key
    · subst heq
      rw [update_self, h.logged c hmem o hlogged, and_self]
      cases howner : c.owner with
      | none =>
        have hpending := ((h.ofPlain c hmem howner).2 o ho).1
        rw [target_of_not_mem hpending, if_pos rfl, update_self]
      | some tid =>
        have hlast := (h.ofTxn c hmem tid howner o ho).1
        rw [target, hlast, hremaining, ← singleton_append, lastFor_append,
          lastFor_eq_none.2 htodo, lastFor_singleton]
        rfl
    · rw [update_of_ne heq, target, hexpected key heq]
      refine h.idle key (forall_replace (fun d hd => hkey d (mem_of_mem_others hd)) ?_)
      rw [hremaining, forall_mem_cons]
      exact ⟨Ne.symm heq, htodo⟩
  case sameOwner => exact h.sameOwner
  case exclusive =>
    refine h.exclusive_replace ?_
    rw [hremaining]
    exact subset_cons_self _ _
  case ofTxn =>
    refine forall_replace (fun d hd => h.ofTxn d (mem_of_mem_others hd)) fun tid htid x hx => ?_
    have hx : x ∈ c.todo := hx
    obtain ⟨hlast, howner⟩ := h.ofTxn c hmem tid htid x (hremaining ▸ .tail _ hx)
    rw [hremaining, ← singleton_append, lastFor_append_of_mem _ hx] at hlast
    exact ⟨hlast, howner⟩
  case ofPlain =>
    refine forall_replace (fun d hd hplain => ?_) fun hplain => ?_
    · obtain ⟨hlen, hd'⟩ := h.ofPlain d (mem_of_mem_others hd) hplain
      refine ⟨hlen, fun x hx => ?_⟩
      have hne := h.other_key d hd o ho x hx
      rw [update_of_ne hne, hexpected _ hne]
      exact hd' x hx
    · have hlen := (h.ofPlain c hmem hplain).1
      rw [hremaining, length_cons] at hlen
      have hnil : c.todo = [] := length_eq_zero_iff.1 (by omega)
      rw [hnil]
      exact ⟨Nat.zero_le _, forall_mem_nil _⟩
  case logged =>
    refine forall_replace (fun d hd => h.logged d (mem_of_mem_others hd)) fun y hy => ?_
    cases hy

end

section
variable (h : Consistent visible replayed expected calls pending)
include h

theorem target_resolve {committed : Bool}
    (hcommitted : committed = true ∨ (pending.filter (·.1 = tid)).map Prod.snd = [])
    (key : String × String × Nat) :
    target (if committed then
        fun key => (lastFor key ((pending.filter (·.1 = tid)).map Prod.snd)).or (expected key)
      else expected) (pending.filter (·.1 ≠ tid)) key = target expected pending key := by
  by_cases hheld : ∃ p ∈ pending, p.2.key = key ∧ p.1 = tid
  · -- All offsets for the key are of this transaction.
    obtain ⟨p, hp, hkey, howner⟩ := hheld
    have hall : ∀ q ∈ pending, q.2.key = key → q.1 = tid := fun q hq hq' =>
      (h.sameOwner q hq p hp (hq'.trans hkey.symm)).trans howner
    have hcommitted : committed = true := by
      refine hcommitted.resolve_right fun hnil => ?_
      have hmem : p ∈ pending.filter (·.1 = tid) := mem_filter.2 ⟨hp, by simpa using howner⟩
      rw [map_eq_nil_iff.1 hnil] at hmem
      cases hmem
    have hgone : ∀ q ∈ pending.filter (·.1 ≠ tid), q.2.key ≠ key := by
      intro q hq hq'
      obtain ⟨hq, hne⟩ := mem_filter.1 hq
      exact absurd (hall q hq hq') (by simpa using hne)
    rw [target_of_not_mem hgone, if_pos hcommitted,
      lastFor_map_filter fun q hq hq' => by simpa using hall q hq hq']
    rfl
  · have hother : ∀ q ∈ pending, q.2.key = key → q.1 ≠ tid := fun q hq hq' howner =>
      hheld ⟨q, hq, hq', howner⟩
    have hnone : lastFor key ((pending.filter (·.1 = tid)).map Prod.snd) = none := by
      refine lastFor_eq_none.2 fun x hx hxkey => ?_
      obtain ⟨q, hq, rfl⟩ := mem_map.1 hx
      obtain ⟨hq, howner⟩ := mem_filter.1 hq
      exact hother q hq hxkey (by simpa using howner)
    rw [target, lastFor_map_filter fun q hq hq' => by simpa using hother q hq hq']
    congr 1
    split
    · show (lastFor key _).or _ = _
      rw [hnone, none_or]
    · rfl

theorem resolve {committed : Bool}
    (hcommitted : committed = true ∨ (pending.filter (·.1 = tid)).map Prod.snd = [])
    (hdone : ∀ c ∈ calls, c.owner = some tid → c.remaining = []) :
    Consistent visible replayed (if committed then
        fun key => (lastFor key ((pending.filter (·.1 = tid)).map Prod.snd)).or (expected key)
      else expected)
      calls (pending.filter (·.1 ≠ tid)) := by
  have hsub : ∀ p ∈ pending.filter (·.1 ≠ tid), p ∈ pending := fun p hp => (mem_filter.1 hp).1
  constructor
  case idle =>
    intro key hkey
    rw [h.target_resolve hcommitted]
    exact h.idle key hkey
  case sameOwner => exact fun p hp q hq => h.sameOwner p (hsub p hp) q (hsub q hq)
  case exclusive => exact h.exclusive
  case ofTxn =>
    intro c hc tid' htid' x hx
    obtain ⟨hlast, howner⟩ := h.ofTxn c hc tid' htid' x hx
    have hne : tid' ≠ tid := by
      rintro rfl
      rw [hdone c hc htid'] at hx
      cases hx
    refine ⟨?_, fun p hp => howner p (hsub p hp)⟩
    rw [← hlast]
    refine lastFor_map_filter fun p hp hkey => ?_
    rw [howner p hp hkey]
    simpa using hne
  case ofPlain =>
    intro c hc hplain
    obtain ⟨hlen, hremaining⟩ := h.ofPlain c hc hplain
    refine ⟨hlen, fun x hx => ?_⟩
    obtain ⟨hpending, hvisible⟩ := hremaining x hx
    have hsame := h.target_resolve hcommitted x.key
    rw [target_of_not_mem fun p hp => hpending p (hsub p hp), target_of_not_mem hpending] at hsame
    refine ⟨fun p hp => hpending p (hsub p hp), ?_⟩
    rw [hsame]
    exact hvisible
  case logged => exact h.logged

theorem restart (hdone : ∀ c ∈ calls, c.remaining = []) : Consistent replayed replayed expected [] pending := by
  constructor
  case idle =>
    intro key _
    have hkey := h.idle key fun c hc x hx => absurd hx (by rw [hdone c hc]; exact not_mem_nil)
    exact ⟨hkey.2, hkey.2⟩
  case sameOwner => exact h.sameOwner
  case exclusive => exact .nil
  case ofTxn | ofPlain | logged =>
    intro c hc
    cases hc

end

end

end Consistent

/-! ## Every run -/

namespace OffsetServer

section
variable {nodeId : UInt64} {s : OffsetServer}

def replayed (nodeId : UInt64) (s : OffsetServer) : String × String × Nat → Option ConsumerOffset :=
  ((new nodeId).replayEvents s.wal).consumerOffsets

def Inv (nodeId : UInt64) (s : OffsetServer) : Prop :=
  Consistent s.memory.consumerOffsets (s.replayed nodeId) s.expected s.calls s.pending

theorem inv_init (nodeId : UInt64) : (machine nodeId).init.Inv nodeId := by
  constructor
  case idle => exact fun _ _ => ⟨rfl, rfl⟩
  case exclusive => exact .nil
  case sameOwner | ofTxn | ofPlain | logged =>
    intro x hx
    cases hx

theorem replayed_concat (nodeId : UInt64) (s : OffsetServer) (e : MetadataEvent) :
    replayed nodeId { s with wal := s.wal ++ [e] } =
      (((new nodeId).replayEvents s.wal).apply e).consumerOffsets := by
  rw [replayed, replayEvents, foldl_append]
  rfl

section
variable (h : s.Inv nodeId)
include h

theorem Inv.writeAndApply (e : LoggedTransaction) (ok : Bool) :
    (s.writeAndApply e.toEvent ok).Inv nodeId := by
  cases ok with
  | false => exact h
  | true =>
  have hreplayed : (s.writeAndApply e.toEvent true).replayed nodeId = s.replayed nodeId :=
    replayed_concat nodeId s e.toEvent
  show Consistent s.memory.consumerOffsets _ s.expected s.calls s.pending
  rw [hreplayed]
  exact h

theorem Inv.resolve (hok : s.Resolvable request) : (s.resolve request).Inv nodeId :=
  Consistent.resolve h hok.1 hok.2

theorem Inv.appended (hc : s.calls[j]? = some c)
    (hok : c.owner ≠ none → ok = true) (hs : s.appended j c ok = some s') : s'.Inv nodeId := by
  obtain ⟨before, after, hcalls, -, hset, -⟩ := exists_split hc
  rw [OffsetServer.appended] at hs
  split at hs
  case h_1 o todo hlogged htodo =>
    rw [Inv, hcalls] at h
    cases ok with
    | true =>
      cases hs
      have happended := h.append hlogged htodo
      rw [← hset] at happended
      have hreplayed : replayed nodeId { s with wal := s.wal ++ [o.toEvent] } =
          update (s.replayed nodeId) o.key (some o) :=
        replayed_concat nodeId s o.toEvent
      rw [← hreplayed] at happended
      exact happended
    | false =>
      cases hs
      have hplain : c.owner = none := by
        by_contra hne
        cases hok hne
      have hfailed := h.appendFails hplain hlogged htodo
      rw [← hset] at hfailed
      exact hfailed
  case h_2 => cases hs

theorem Inv.applied (hc : s.calls[j]? = some c) (ho : c.logged = some o) :
    (s.applied j c o).Inv nodeId := by
  obtain ⟨before, after, hcalls, -, hset, -⟩ := exists_split hc
  rw [Inv, hcalls] at h
  have happlied := h.apply ho
  rw [← hset] at happlied
  exact happlied

theorem Inv.step (hok : s.Isolated a) (hs : s.step nodeId a = some s') : s'.Inv nodeId := by
  cases a with simp only [OffsetServer.step] at hs
  | offsetCommit o =>
    cases hs
    exact Consistent.offsetCommit h hok.1 hok.2
  | txnOffsetCommit tid groupId offsets nowMs =>
    cases hs
    exact Consistent.txnOffsetCommit h (fun o ho => (hok o ho).1) fun o ho => (hok o ho).2
  | append j ok =>
    obtain ⟨c, hc, hs⟩ := bind_eq_some_iff.1 hs
    exact h.appended hc (hok c hc) hs
  | apply j =>
    obtain ⟨c, hc, hs⟩ := bind_eq_some_iff.1 hs
    obtain ⟨o, ho, rfl⟩ := map_eq_some_iff.1 hs
    exact h.applied hc ho
  | register tid producerId producerEpoch timeoutMs nowMs ok =>
    have hwritten := h.writeAndApply (registration tid producerId producerEpoch timeoutMs nowMs) ok
    cases ok with
    | false =>
      cases hs
      exact hwritten
    | true =>
    cases hs
    -- There is no open transaction with offsets that the registration could drop.
    have hnone : s.pending.filter (·.1 ≠ tid) = s.pending := by
      refine filter_eq_self.2 fun p hp => ?_
      have hnil := filter_eq_nil_iff.1 (map_eq_nil_iff.1 (hok rfl)) p hp
      simpa using hnil
    show Consistent _ _ s.expected s.calls (s.pending.filter (·.1 ≠ tid))
    rw [hnone]
    exact hwritten
  | addPartitionsToTxn tid producerId producerEpoch partitions nowMs ok =>
    cases hs
    exact h.writeAndApply ⟨tid, nowMs, _⟩ ok
  | addOffsetsToTxn tid producerId producerEpoch groupId =>
    cases hs
    exact h
  | endTxn request =>
    cases hs
    split
    case isTrue hacked => exact Inv.resolve (s := { s with ends := s.ends ++ [_] }) h (hok hacked)
    case isFalse => exact h
  | prepare j nowMs ok =>
    split at hs <;> cases hs
    rename_i request partitions hphase
    exact h.writeAndApply (request.prepareEvent nowMs) ok
  | writeMarker j partition =>
    split at hs
    case h_1 request partitions pending hphase =>
      obtain ⟨-, rfl⟩ := of_guard hs
      exact h
    case h_2 => cases hs
  | finalize j nowMs ok =>
    split at hs
    case h_1 request partitions pending hphase =>
      obtain ⟨-, rfl⟩ := of_guard hs
      have hwritten := h.writeAndApply (request.finalEvent nowMs) ok
      cases ok with
      | false => exact hwritten
      | true =>
      exact Inv.resolve
        (s := (s.writeAndApply (request.finalEvent nowMs).toEvent true).setEnd j
          (.finalized request partitions true))
        hwritten (hok rfl _ hphase request rfl)
    case h_2 => cases hs
  | restart =>
    cases hs
    exact Consistent.restart h hok

end

/-- With isolated commits, the visible offset of a key without an open transaction or request is
that of the last plain commit or committed transaction, in memory and after a replay. -/
theorem visible_offset_expected (h : Reaches (machine nodeId) Isolated s)
    {key : String × String × Nat} (hopen : ∀ p ∈ s.pending, p.2.key ≠ key) (hidle : s.Idle key) :
    s.memory.consumerOffsets key = s.expected key ∧ s.replayed nodeId key = s.expected key := by
  have hinv : s.Inv nodeId := h.invariant (inv_init nodeId) fun _ _ _ hi hok hs => hi.step hok hs
  have hvisible := Consistent.idle hinv key hidle
  rwa [Consistent.target_of_not_mem hopen] at hvisible

end

end OffsetServer

/-! ## Transactions that are open, aborted or not written -/

namespace TxnOffsetsFixture

open OffsetServer

def key : String × String × Nat := ("g", "t", 0)

/-- A producer is registered and its transaction has a TxnOffsetCommit in flight. -/
def txnCommit (tid : String) (offset : Int) : List Action :=
  [.register tid 1 0 60000 0 true, .addOffsetsToTxn tid 1 0 "g",
    .txnOffsetCommit tid "g" [("t", 0, offset, none)] 0]

def plain (j : Nat) (offset : Int) : List Action :=
  [.offsetCommit ⟨"g", "t", 0, offset, none, 0⟩, .append j true, .apply j]

/-- The write of a request in flight and its end. -/
def written (j : Nat) : List Action := [.append j true, .apply j]

def commit (tid : String) (j : Nat) : List Action :=
  [.endTxn ⟨tid, 1, 0, true⟩, .prepare j 0 true, .finalize j 0 true]

def abort (tid : String) (j : Nat) : List Action :=
  [.endTxn ⟨tid, 1, 0, false⟩, .finalize j 0 true]

end TxnOffsetsFixture

section
open OffsetServer TxnOffsetsFixture

theorem visible_offset_expected_committed :
    ∃ s, Reaches (machine 0) Isolated s ∧ (∀ p ∈ s.pending, p.2.key ≠ key) ∧ s.Idle key ∧
      (s.expected key).map (·.offset) = some 5 ∧
      (s.memory.consumerOffsets key = s.expected key ∧ s.replayed 0 key = s.expected key) := by
  obtain ⟨s, hs, hopen, hidle, hexpected⟩ := exists_reaches_of_run (machine 0) Isolated
    (plain 0 3 ++ txnCommit "p" 5 ++ written 1 ++ commit "p" 0 ++ [.restart])
    (fun s => (∀ p ∈ s.pending, p.2.key ≠ key) ∧ s.Idle key ∧
      (s.expected key).map (·.offset) = some 5) (by decide)
  exact ⟨s, hs, hopen, hidle, hexpected, visible_offset_expected hs hopen hidle⟩

/-- The offset of an open transaction is visible; so is that of an aborted one; a failed write is
answered without an error and committed; a plain commit between an offset and its commit stays
visible. -/
theorem transactional_offset_visible :
    (∃ s, Reaches (machine 0) Always s ∧ s.Idle key ∧ s.pending.map (·.1) = ["p"] ∧
      s.expected key = none ∧ (s.memory.consumerOffsets key).map (·.offset) = some 5) ∧
    (∃ s, Reaches (machine 0) Always s ∧ s.Idle key ∧ s.pending = [] ∧
      s.expected key = none ∧ (s.memory.consumerOffsets key).map (·.offset) = some 5) ∧
    (∃ s, Reaches (machine 0) Always s ∧ s.Idle key ∧ s.pending = [] ∧
      (s.expected key).map (·.offset) = some 5 ∧ s.memory.consumerOffsets key = none ∧
      s.replayed 0 key = none) ∧
    ∃ s, Reaches (machine 0) Always s ∧ s.Idle key ∧ s.pending = [] ∧
      (s.expected key).map (·.offset) = some 5 ∧
      (s.memory.consumerOffsets key).map (·.offset) = some 7 := by
  refine ⟨?_, ?_, ?_, ?_⟩
  · exact exists_reaches_of_run (machine 0) Always (txnCommit "p" 5 ++ written 0) _ (by decide)
  · exact exists_reaches_of_run (machine 0) Always
      (txnCommit "p" 5 ++ written 0 ++ abort "p" 0)
      _ (by decide)
  · exact exists_reaches_of_run (machine 0) Always
      (txnCommit "p" 5 ++ [.append 0 false] ++ commit "p" 0)
      _ (by decide)
  · exact exists_reaches_of_run (machine 0) Always
      (txnCommit "p" 5 ++ written 0 ++ plain 1 7 ++ commit "p" 0)
      _ (by decide)

end

end ChronikStream.Metadata
