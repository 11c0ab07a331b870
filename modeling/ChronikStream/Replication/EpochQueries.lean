import ChronikStream.Replication.Log

/-!
# What the epoch history answers

`epoch_for_offset` and `end_offset_for_epoch` of `leader_epoch.rs`, along appends and truncations at
the boundaries of batches. Both are answered from the log (`epochEnd`), and a replica that has only
a suffix of it answers the same for what lies in it.
-/

namespace ChronikStream

open List Option LeaderEpochStore Batch
open OffsetRange (endFrom endFrom_append)

variable {α : Type*}

namespace LeaderEpochCache

/-- The epoch that was in force at an offset. -/
def epochForOffset (c : LeaderEpochCache) (offset : Int) : Option Int :=
  (c.entries.reverse.find? (·.startOffset ≤ offset)).map (·.epoch)

end LeaderEpochCache

/-- A log of stamped batches with contiguous offsets and epochs that never decrease. -/
structure Stamped (start : Int) (log : List (Batch α)) : Prop where
  contiguous : Contiguous start log
  monotone : log.Pairwise (·.epoch ≤ ·.epoch)
  stamped : ∀ b ∈ log, 0 ≤ b.epoch

/-- The histories of a partition along appends and truncations at the boundaries of batches, with
the log. -/
inductive EpochRun (topic : String) (part : Int) (start : Nat) :
    LeaderEpochStore → List (Batch α) → Prop
  | new : EpochRun topic part start .empty []
  | append {s log b} : EpochRun topic part start s log → Stamped start (log ++ [b]) →
    EpochRun topic part start (s.observeAppend topic part b.epoch b.baseOffset) (log ++ [b])
  | truncate {s log gone} : EpochRun topic part start s (log ++ gone) →
    EpochRun topic part start (s.truncateFromEnd topic part (endFrom start log)) log

/-- The newest epoch ends at the log end; one with a larger one behind it, together with the largest
logged epoch up to it, where the first batch of a larger one begins. -/
def epochEnd (log : List (Batch α)) (requested logEndOffset : Int) : Int × Int :=
  if log.getLast?.map (·.epoch) = some requested then (requested, logEndOffset)
  else
    match ((log.map (·.epoch)).filter (· ≤ requested)).max?, log.find? (requested < ·.epoch) with
    | some epoch, some next => (epoch, next.baseOffset)
    | _, _ => (undefinedEpoch, undefinedOffset)

section
variable {log gone pre post : List (Batch α)} {b : Batch α}

theorem Stamped.of_append (h : Stamped start (log ++ gone)) : Stamped start log where
  contiguous := (contiguous_append.1 h.contiguous).1
  monotone := (pairwise_append.1 h.monotone).1
  stamped b hb := h.stamped b (mem_append_left _ hb)

theorem Stamped.of_append_right (h : Stamped start (pre ++ post)) :
    Stamped (endFrom start pre) post where
  contiguous := (contiguous_append.1 h.contiguous).2
  monotone := (pairwise_append.1 h.monotone).2.1
  stamped b hb := h.stamped b (mem_append_right _ hb)

/-- An end above the first offset of a suffix is found in the suffix. -/
theorem Stamped.epochEnd_suffix (h : Stamped start (pre ++ b :: post)) (h0 : 0 ≤ b.baseOffset)
    (habove : b.baseOffset < (epochEnd (pre ++ b :: post) e logEndOffset).2) :
    epochEnd (b :: post) e logEndOffset = epochEnd (pre ++ b :: post) e logEndOffset := by
  have hlast : (pre ++ b :: post).getLast? = (b :: post).getLast? := by
    simp [getLast?_append, getLast?_cons]
  unfold epochEnd at habove ⊢
  rw [hlast] at habove ⊢
  split at habove
  · next heq => rw [if_pos heq, if_pos heq]
  next hne =>
  split at habove
  · next m s hmax hfind =>
    have hpre : ∀ z ∈ pre, z.epoch ≤ b.epoch ∧ z.baseOffset < b.baseOffset := fun z hz => by
      have := (contiguous_append.1 h.contiguous).1.lastOffset_lt_endFrom z hz
      have := z.baseOffset_le_lastOffset
      have := h.contiguous.baseOffset_eq
      exact ⟨(pairwise_append.1 h.monotone).2.2 z hz b (.head _), by omega⟩
    have hnone : pre.find? (e < ·.epoch) = none := by
      cases hp : pre.find? (e < ·.epoch) with
      | none => rfl
      | some z =>
      have := hpre z (mem_of_find?_eq_some hp)
      simp only [find?_append, hp, some_or, some.injEq] at hfind
      subst hfind
      omega
    rw [find?_append, hnone, none_or] at hfind
    have hb : b.epoch ≤ e := by
      by_contra hlt
      rw [find?_cons_of_pos (by simpa using hlt)] at hfind
      cases hfind
      omega
    have hmax' : (((b :: post).map (·.epoch)).filter (· ≤ e)).max? = some m := by
      simp only [max?_eq_some_iff, mem_filter, List.mem_map, mem_append] at hmax ⊢
      obtain ⟨⟨⟨z, hz, rfl⟩, hle⟩, hmax⟩ := hmax
      refine ⟨⟨?_, hle⟩, fun x hx => hmax x ⟨hx.1.imp fun _ => .imp_left .inr, hx.2⟩⟩
      rcases hz with hz | hz
      · have := hmax b.epoch ⟨⟨b, .inr (.head _), rfl⟩, by simpa using hb⟩
        exact ⟨b, .head _, le_antisymm this (hpre z hz).1⟩
      · exact ⟨z, hz, rfl⟩
    rw [hfind, hmax']
  · simp [undefinedOffset] at habove
    omega

namespace LeaderEpochCache

theorem replay_concat_stamped (h : Stamped start (log ++ [b])) : (replay (log ++ [b])).entries =
    if ∃ last ∈ (replay log).entries.getLast?, b.epoch ≤ last.epoch then (replay log).entries
    else (replay log).entries ++ [⟨b.epoch, b.baseOffset⟩] := by
  simp [replay_concat_entries h.contiguous, (h.stamped b (by simp)).not_gt]

/-- The last entry with a property, where it has one that no later entry has. -/
theorem find?_reverse_eq_some {c : LeaderEpochCache} {p : EpochEntry → Bool} (hx : x ∈ c.entries)
    (hp : p x) (hlast : ∀ y ∈ c.entries, x.Precedes y → p y = false) :
    c.entries.reverse.find? p = some x := by
  obtain ⟨front, back, heq⟩ := append_of_mem hx
  have hback := (pairwise_append.1 (heq ▸ c.increasing)).2.1
  have hnone : back.reverse.find? p = none := by
    simpa using fun y hy => hlast y (by simp [heq, hy]) (rel_of_pairwise_cons hback hy)
  simp [heq, find?_append, hnone, hp]

section
variable (h : Stamped start log)
include h

/-- A later entry is that of a batch behind all batches of the epoch. -/
theorem lastOffset_lt (hb : b ∈ log) (hy : y ∈ (replay log).entries)
    (hlt : b.epoch < y.epoch) : b.lastOffset < y.startOffset := by
  obtain ⟨z, hz, hepoch, hstart, -⟩ := mem_replay hy
  obtain ⟨front, back, rfl⟩ := append_of_mem hb
  have hasc := h.contiguous.ascending
  have hmono := h.monotone
  rw [OffsetRange.Ascending, pairwise_append, pairwise_cons] at hasc
  rw [pairwise_append] at hmono
  rw [mem_append, mem_cons] at hz
  rcases hz with hz | rfl | hz
  · have := hmono.2.2 z hz b (by simp)
    omega
  · omega
  · have : b.lastOffset < z.baseOffset := hasc.2.1.1 z hz
    omega

theorem epochForOffset_replay (hb : b ∈ log) (hbase : b.baseOffset ≤ o)
    (hlast : o ≤ b.lastOffset) : (replay log).epochForOffset o = some b.epoch := by
  obtain ⟨x, hx, hepoch, hstart⟩ := exists_entry h.contiguous h.monotone hb (h.stamped b hb)
  rw [epochForOffset, find?_reverse_eq_some hx (by simp; omega) fun y hy hxy => ?_]
  · exact congrArg some hepoch
  · have := lastOffset_lt h hb hy (hepoch ▸ hxy.1)
    simp
    omega

theorem find?_older_replay :
    ((replay log).entries.reverse.find? (·.epoch ≤ e)).map (·.epoch) =
      ((log.map (·.epoch)).filter (· ≤ e)).max? := by
  cases hmax : ((log.map (·.epoch)).filter (· ≤ e)).max? with
  | none =>
    rw [max?_eq_none_iff, filter_eq_nil_iff] at hmax
    rw [map_eq_none_iff, find?_eq_none]
    intro x hx
    obtain ⟨b, hb, hepoch, -⟩ := mem_replay (mem_reverse.1 hx)
    simpa [hepoch] using hmax b.epoch (mem_map_of_mem hb)
  | some m =>
    simp only [max?_eq_some_iff, mem_filter, List.mem_map, decide_eq_true_eq] at hmax
    obtain ⟨⟨⟨b, hb, rfl⟩, hle⟩, hmax⟩ := hmax
    obtain ⟨x, hx, hepoch, -⟩ := exists_entry h.contiguous h.monotone hb (h.stamped b hb)
    rw [find?_reverse_eq_some hx (by simp; omega) fun y hy hxy => ?_, map_some, hepoch]
    obtain ⟨z, hz, hy, -⟩ := mem_replay hy
    have := hxy.1
    simp
    by_contra
    have := hmax z.epoch ⟨⟨z, hz, rfl⟩, by omega⟩
    omega

theorem endOffsetForEpoch_replay (e logEndOffset : Int) :
    (replay log).endOffsetForEpoch e logEndOffset = epochEnd log e logEndOffset := by
  have hlatest : (replay log).latestEpoch = log.getLast?.map (·.epoch) := by
    rw [latestEpoch_replay h.contiguous h.monotone]
    cases hl : log.getLast? with
    | none => rfl
    | some b => simp [h.stamped b (mem_of_getLast? hl)]
  have holder := find?_older_replay (e := e) h
  unfold endOffsetForEpoch epochEnd
  rw [← hlatest, latestEpoch, ← holder]
  split
  · next hneg =>
    have hpos : ∀ x ∈ (replay log).entries, e < x.epoch := fun x hx => by
      obtain ⟨b, -, hepoch, -, h0⟩ := mem_replay hx
      omega
    have hnone : (replay log).entries.reverse.find? (·.epoch ≤ e) = none := by simpa using hpos
    rw [if_neg, hnone]
    · rfl
    · simp only [map_eq_some_iff, not_exists, not_and]
      exact fun x hx => (hpos x (mem_of_getLast? hx)).ne'
  · next hneg =>
    rw [find?_replay_newer h.contiguous h.monotone (not_lt.1 hneg)]
    cases hl : (replay log).entries.getLast? with
    | none => simp [getLast?_eq_none_iff.1 hl]
    | some latest =>
    simp only [map_some, some.injEq, eq_comm (a := e)]
    split
    · rfl
    · cases (replay log).entries.reverse.find? (·.epoch ≤ e) <;>
        cases log.find? (e < ·.epoch) <;> rfl

end

theorem truncateFromEnd_replay (hstart : 0 ≤ start) (h : Stamped start (log ++ gone)) :
    (replay (log ++ gone)).truncateFromEnd (endFrom start log) = replay log := by
  have hpos : ¬ endFrom start log < 0 := by
    have := h.of_append.contiguous.endFrom_eq
    omega
  rw [truncateFromEnd, if_neg hpos]
  ext1
  dsimp only
  induction gone using List.reverseRecOn with
  | nil =>
    rw [append_nil, filter_eq_self]
    intro x hx
    obtain ⟨b, hb, -, hstart, -⟩ := mem_replay hx
    have := h.of_append.contiguous.lastOffset_lt_endFrom b hb
    have := b.baseOffset_le_lastOffset
    simp
    omega
  | append_singleton gone b ih =>
    rw [← append_assoc] at h ⊢
    have hbase := h.contiguous.baseOffset_eq
    have hend := (contiguous_append.1 h.of_append.contiguous).2.endFrom_eq
    rw [endFrom_append] at hbase
    rw [replay_concat_stamped h, ← ih h.of_append]
    split
    · rfl
    · simp
      omega

end LeaderEpochCache

open LeaderEpochCache

theorem EpochRun.historyOf_eq (h : EpochRun topic part start s log) :
    Stamped start log ∧ s.historyOf topic part = replay log := by
  induction h with
  | new => exact ⟨⟨trivial, .nil, by simp⟩, rfl⟩
  | append _ hlog ih =>
    rw [historyOf_observeAppend, ih.2, replay_concat]
    exact ⟨hlog, rfl⟩
  | @truncate s log gone _ ih =>
    refine ⟨ih.1.of_append, ?_⟩
    rw [← truncateFromEnd_replay (Int.natCast_nonneg start) ih.1, ← ih.2]
    unfold LeaderEpochStore.truncateFromEnd LeaderEpochStore.historyOf
    cases hc : s.caches (topic, part) with
    | none => simp [hc, LeaderEpochCache.truncateFromEnd, LeaderEpochCache.empty]
    | some c => simp [LeaderEpochStore.set]

/-- The history stays ordered and the replay of the log, and both queries answer from the log; so
does the replay of a suffix, for the offsets in it and the ends above its first. -/
theorem history_answers_from_log (h : EpochRun topic part start s log) :
    (s.historyOf topic part).entries.Pairwise EpochEntry.Precedes ∧
      s.historyOf topic part = replay log ∧
      (∀ b ∈ log, ∀ o, b.baseOffset ≤ o → o ≤ b.lastOffset →
        (s.historyOf topic part).epochForOffset o = some b.epoch) ∧
      (∀ e logEndOffset, s.endOffsetForEpoch topic part e logEndOffset = epochEnd log e logEndOffset) ∧
      ∀ pre b post, log = pre ++ b :: post →
        (∀ z ∈ b :: post, ∀ o, z.baseOffset ≤ o → o ≤ z.lastOffset →
          (replay (b :: post)).epochForOffset o =
            (s.historyOf topic part).epochForOffset o) ∧
        ∀ e logEndOffset, b.baseOffset < (s.endOffsetForEpoch topic part e logEndOffset).2 →
          (replay (b :: post)).endOffsetForEpoch e logEndOffset =
            s.endOffsetForEpoch topic part e logEndOffset := by
  obtain ⟨hlog, heq⟩ := h.historyOf_eq
  simp only [endOffsetForEpoch_eq, heq, endOffsetForEpoch_replay hlog]
  refine ⟨(replay log).increasing, trivial, fun b hb o => epochForOffset_replay hlog hb,
    fun _ _ => trivial, ?_⟩
  rintro pre b post rfl
  have hsuffix := hlog.of_append_right
  refine ⟨fun z hz o hbase hlast => ?_, fun e logEndOffset habove => ?_⟩
  · rw [epochForOffset_replay hsuffix hz hbase hlast,
      epochForOffset_replay hlog (mem_append_right _ hz) hbase hlast]
  · have h0 := (Int.natCast_nonneg start).trans (hlog.contiguous.le_baseOffset b (by simp))
    rw [endOffsetForEpoch_replay hsuffix, hlog.epochEnd_suffix h0 habove]

/-- Two batches, of which the second is truncated and written again by a newer leader. -/
theorem history_answers_from_log_rewritten :
    ∃ s : LeaderEpochStore, EpochRun "t" 0 0 s [single 0 1 "a", single 1 4 "c"] ∧
      (s.historyOf "t" 0).epochForOffset 1 = some 4 ∧ s.endOffsetForEpoch "t" 0 2 9 = (1, 1) := by
  have hfirst : EpochRun "t" 0 0 _ ([] ++ [single 0 1 "a"]) :=
    .append .new ⟨by decide, by decide, by decide⟩
  have hsecond : EpochRun "t" 0 0 _ ([single 0 1 "a"] ++ [single 1 3 "b"]) :=
    hfirst.append ⟨by decide, by decide, by decide⟩
  have hlast : EpochRun "t" 0 0 _ ([single 0 1 "a"] ++ [single 1 4 "c"]) :=
    hsecond.truncate.append ⟨by decide, by decide, by decide⟩
  have hanswers := history_answers_from_log hlast
  exact ⟨_, hlast, hanswers.2.2.1 (.single 1 4 "c") (by decide) 1 (by decide) (by decide),
    hanswers.2.2.2.1 2 9⟩

end

end ChronikStream
