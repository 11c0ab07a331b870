import ChronikStream.Txn.TransactionIndex

/-!
# read_committed fetches

A response holds whole batches from the one with the fetch offset on, cut at the last stable offset,
and all aborted transactions that start below the high watermark; the consumer is a Kafka client.
The byte format is a parameter (`WireFormat.Carries`). The consumer gets exactly the committed
records if and only if the fetch is `ServedExactly`: the list has no lower bound, so a transaction
that was over before the fetch offset is activated and its marker never comes.
-/

namespace ChronikStream

open Bytes OffsetRange PartitionTxnState List Option TxnBatch

variable {β : Type*}

/-! ## The bytes of a response -/

/-- A wire format for batches: `to_kafka_batch`, and the consumer's decoder. -/
structure WireFormat (β : Type*) where
  encode : TxnBatch β → List UInt8
  decode : List UInt8 → Option (TxnBatch β)

/-- The format carries a batch: its bytes are the base offset, the length of the rest and the rest,
and they are decoded to the batch. -/
structure WireFormat.Carries (fmt : WireFormat β) (b : TxnBatch β) : Prop where
  frame : ∃ body : List UInt8,
    fmt.encode b = beInt 8 b.baseOffset ++ (beInt 4 body.length ++ body) ∧ 9 ≤ body.length ∧
      body.length < 2 ^ 31
  base_fits : Fits 8 b.baseOffset
  decode_encode : fmt.decode (fmt.encode b) = some b

/-- The loop of `keep_len_below_offset`, with additions that wrap; `none` when it is out of fuel. -/
def keepLenFrom (bytes : List UInt8) (offset : Int) : Nat → Nat → Option Nat
  | 0, _ => none
  | fuel + 1, pos =>
    if bytes.length < pos + 12 then some bytes.length
    else
      let batchLength := asUsize (ofBeInt (slice bytes (pos + 8) 4))
      let batchEnd := (pos + 12 + batchLength) % 2 ^ 64
      if batchLength < 9 ∨ bytes.length < batchEnd then some bytes.length
      else if offset ≤ ofBeInt (slice bytes pos 8) then some pos
      else keepLenFrom bytes offset fuel batchEnd

/-- The length of the leading batches whose base offset is below `offset`. -/
def keepLenBelowOffset (bytes : List UInt8) (offset : Int) : Option Nat :=
  keepLenFrom bytes offset (bytes.length + 1) 0

structure FetchResponsePartition where
  records : List UInt8
  lastStableOffset : Int
  aborted : List AbortedTxn

section
variable (fmt : WireFormat β) (log : List (TxnBatch β)) (fetchOffset : Nat)

/-- The batches that overlap the fetch, whole. The log starts at offset 0. -/
def fetchRawBytes (highWatermark : Int) : List UInt8 :=
  if fetchOffset < highWatermark then
    (log.filter fun b => (fetchOffset : Int) ≤ b.lastOffset ∧ b.baseOffset < highWatermark).flatMap
      fmt.encode
  else []

def servePartition (st : PartitionTxnState) (log : List (TxnBatch β))
    (fetchOffset : Nat) (highWatermark : Int) : Option FetchResponsePartition :=
  let bytes := fetchRawBytes fmt log fetchOffset highWatermark
  let lso := st.lastStableOffset highWatermark
  (if lso < highWatermark ∧ bytes ≠ [] then (keepLenBelowOffset bytes lso).map bytes.take
    else some bytes).map fun records => ⟨records, lso, st.abortedBelow highWatermark⟩

/-! ## The consumer -/

/-- The batches in a response; the fuel bounds their number. -/
def decodeFrom (fmt : WireFormat β) : Nat → List UInt8 → List (TxnBatch β)
  | 0, _ => []
  | fuel + 1, bytes =>
    if bytes.length < 12 then []
    else
      let size := 12 + (ofBeInt (slice bytes 8 4)).toNat
      if bytes.length < size then []
      else
        match fmt.decode (bytes.take size) with
        | none => []
        | some b => b :: decodeFrom fmt fuel (bytes.drop size)

/-- The records of a batch that the consumer has not had yet. -/
def recordsFrom (b : TxnBatch β) : List (LogRecord (TxnRecord β)) :=
  b.logRecords.filter (fetchOffset ≤ ·.offset)

/-- `remaining` are the aborted transactions that start behind the batches so far, `active` the
producers activated and not deactivated. -/
def consumeFrom (fetchOffset : Nat) :
    List AbortedTxn → List Int → List (TxnBatch β) → List (LogRecord (TxnRecord β))
  | _, _, [] => []
  | remaining, active, b :: bs =>
    let activated := active ++ (remaining.filter (·.firstOffset ≤ b.lastOffset)).map (·.producerId)
    let behind := remaining.filter (b.lastOffset < ·.firstOffset)
    if b.isControl then
      consumeFrom fetchOffset behind
        (if b.marker = some .abort then activated.filter (· ≠ b.producerId) else activated) bs
    else
      (if b.isTransactional ∧ b.producerId ∈ activated then [] else recordsFrom fetchOffset b) ++
        consumeFrom fetchOffset behind activated bs

/-- What the consumer delivers of a response. -/
def consume (response : FetchResponsePartition) : List (LogRecord (TxnRecord β)) :=
  consumeFrom fetchOffset response.aborted []
    (decodeFrom fmt response.records.length response.records)

end

/-! ## What it should deliver -/

namespace TxnBatch

/-- Data that is not part of a transaction or of a committed one. -/
def Stable (log : List (TxnBatch β)) (b : TxnBatch β) : Prop :=
  b.isControl = false ∧ (b.isTransactional = true → fate log b = some .commit)
deriving Decidable

end TxnBatch

/-- The stable records in `[fetchOffset, bound)`. -/
def committedRecords (log : List (TxnBatch β)) (fetchOffset : Nat) (bound : Int) :
    List (LogRecord (TxnRecord β)) :=
  log.flatMap fun b =>
    if b.Stable log then b.logRecords.filter fun r => fetchOffset ≤ r.offset ∧ r.offset < bound
    else []

/-- The log of a partition: batches in offset order, and transactions have a producer. -/
structure TxnLog (β : Type*) where
  batches : List (TxnBatch β)
  ascending : Ascending batches
  producers : ∀ b ∈ batches, b.IsTxnData → 0 ≤ b.producerId

section
variable (log : TxnLog β) (fetchOffset : Nat) (highWatermark : Int)

def TxnLog.readableEnd : Int :=
  min ((replay log.batches).lastStableOffset highWatermark) highWatermark

/-- A batch is returned: it reaches the fetch offset and starts before the readable end. -/
def TxnLog.Returned (b : TxnBatch β) : Prop :=
  fetchOffset < highWatermark ∧ fetchOffset ≤ b.lastOffset ∧
    b.baseOffset < log.readableEnd highWatermark
deriving Decidable

def TxnLog.returned : List (TxnBatch β) :=
  log.batches.filter (log.Returned fetchOffset highWatermark)

end

/-- The condition for a fetch to be exact. -/
structure TxnLog.ServedExactly (log : TxnLog β) (fetchOffset : Nat) (highWatermark : Int) :
    Prop where
  /-- No stable batch of the range reaches the high watermark. -/
  whole : ∀ b ∈ log.batches, log.Returned fetchOffset highWatermark b → b.Stable log.batches →
    b.lastOffset < highWatermark
  /-- A producer aborted before one of its committed batches of the range has an abort marker in
  front of it there. -/
  marked : ∀ b ∈ log.batches, log.Returned fetchOffset highWatermark b → b.IsTxnData →
    fate log.batches b = some .commit →
    ∀ a ∈ log.batches, a.IsTxnData → a.producerId = b.producerId →
      fate log.batches a = some .abort → a.baseOffset < b.baseOffset →
      ∃ c ∈ log.batches, fetchOffset ≤ c.lastOffset ∧ c.baseOffset < b.baseOffset ∧
        markerOf b.producerId c = some .abort

/-! ## The bytes and the batches -/

section
variable {fmt : WireFormat β} {b : TxnBatch β} {bs : List (TxnBatch β)} {pre post : List UInt8}
  {offset : Int} {fuel : Nat}

/-- A byte string that is one batch with this base offset. -/
def DeclaresBatch (f : List UInt8) (base : Int) : Prop :=
  21 ≤ f.length ∧ ofBeInt (slice f 8 4) + 12 = f.length ∧ ofBeInt (slice f 0 8) = base
deriving Decidable

/-- No whole batch is left, and no length field is negative. -/
def CutOff (rest : List UInt8) : Prop :=
  rest.length < 12 ∨ 0 ≤ ofBeInt (slice rest 8 4) ∧
    (ofBeInt (slice rest 8 4) < 9 ∨ rest.length < ofBeInt (slice rest 8 4) + 12)
deriving Decidable

theorem WireFormat.Carries.header (h : fmt.Carries b) : DeclaresBatch (fmt.encode b) b.baseOffset := by
  obtain ⟨body, hframe, hmin, hmax⟩ := h.frame
  have hlen : (fmt.encode b).length = 12 + body.length := by
    rw [hframe, length_append, length_append, length_beInt, length_beInt]
    omega
  have hfits : Fits 4 (body.length : Int) := by
    rw [Fits]
    omega
  have hbase : slice (fmt.encode b) 0 8 = beInt 8 b.baseOffset := by
    rw [hframe, ← nil_append (_ ++ _)]
    exact slice_append rfl (length_beInt _ _).symm
  have hlength : slice (fmt.encode b) 8 4 = beInt 4 body.length := by
    rw [hframe]
    exact slice_append (length_beInt _ _).symm (length_beInt _ _).symm
  rw [DeclaresBatch, hbase, ofBeInt_beInt h.base_fits, hlength, ofBeInt_beInt hfits]
  omega

/-- Where a batch stands in a response, its length and its end are computed without wrapping. -/
theorem DeclaresBatch.end_eq (h : DeclaresBatch f o)
    (hsize : (pre ++ (f ++ post)).length < 2 ^ 63) :
    asUsize (ofBeInt (slice (pre ++ (f ++ post)) (pre.length + 8) 4)) = f.length - 12 ∧
      (pre.length + 12 + (f.length - 12)) % 2 ^ 64 = (pre ++ f).length := by
  obtain ⟨hmin, hlength, -⟩ := h
  rw [length_append, length_append] at hsize
  rw [slice_within (by omega), length_append, asUsize]
  omega

theorem CutOff.stops (pre : List UInt8) (h : CutOff rest) (hlen : 12 ≤ rest.length)
    (hsize : (pre ++ rest).length < 2 ^ 63) :
    asUsize (ofBeInt (slice (pre ++ rest) (pre.length + 8) 4)) < 9 ∨ (pre ++ rest).length <
      (pre.length + 12 + asUsize (ofBeInt (slice (pre ++ rest) (pre.length + 8) 4))) % 2 ^ 64 := by
  have hslice : slice (pre ++ rest) (pre.length + 8) 4 = slice rest 8 4 := by
    rw [← append_nil rest, slice_within (by omega), append_nil]
  have hlt := ofBeInt_lt_of_length (length_slice (by omega) : (slice rest 8 4).length = 4)
  rw [hslice, asUsize, length_append] at *
  obtain h | h := h <;> omega

/-- The batches below the offset are kept, and what is cut off behind them where that is all. -/
theorem keepLenFrom_encode {enc : α → List UInt8} {baseOf : α → Int} {bs : List α} (pre : List UInt8)
    (h : ∀ b ∈ bs, DeclaresBatch (enc b) (baseOf b)) (hrest : CutOff rest) (hfuel : bs.length < fuel)
    (hsize : (pre ++ (bs.flatMap enc ++ rest)).length < 2 ^ 63) :
    keepLenFrom (pre ++ (bs.flatMap enc ++ rest)) offset fuel pre.length =
      some (pre ++ ((bs.takeWhile (baseOf · < offset)).flatMap enc ++
        if bs.all (baseOf · < offset) then rest else [])).length := by
  induction bs generalizing pre fuel with
  | nil =>
    obtain ⟨fuel, rfl⟩ := Nat.exists_eq_add_one.2 hfuel
    change keepLenFrom (pre ++ rest) offset (fuel + 1) pre.length = some (pre ++ rest).length
    rw [keepLenFrom]
    split
    · rfl
    case isFalse hlen =>
      exact if_pos (hrest.stops pre (by rw [length_append] at hlen; omega) hsize)
  | cons b bs ih =>
    obtain ⟨hb, hbs⟩ := forall_mem_cons.1 h
    obtain ⟨fuel, rfl⟩ := Nat.exists_eq_add_one.2 (Nat.zero_lt_of_lt hfuel)
    rw [flatMap_cons, append_assoc] at hsize ⊢
    obtain ⟨hcast, hend⟩ := hb.end_eq hsize
    have hmin := hb.1
    have hbase : slice (pre ++ (enc b ++ (bs.flatMap enc ++ rest))) pre.length 8 = slice (enc b) 0 8 :=
      slice_within (p := 0) (n := 8) (by omega)
    have htotal : (pre ++ (enc b ++ (bs.flatMap enc ++ rest))).length =
        (pre ++ enc b).length + (bs.flatMap enc ++ rest).length := by
      rw [← append_assoc, length_append]
    rw [keepLenFrom, if_neg (by rw [htotal, length_append]; omega)]
    simp only [hcast, hbase, hend, hb.2.2]
    rw [if_neg (by omega)]
    split
    case isTrue hge => simp [takeWhile_cons_of_neg, hge]
    case isFalse hlt =>
    rw [← append_assoc] at hsize ⊢
    rw [ih _ hbs (Nat.lt_of_succ_lt_succ hfuel) hsize]
    simp [takeWhile_cons_of_pos, not_le.1 hlt]

theorem decodeFrom_encode (h : ∀ b ∈ bs, fmt.Carries b) (hfuel : bs.length ≤ fuel) :
    decodeFrom fmt fuel (bs.flatMap fmt.encode) = bs := by
  induction bs generalizing fuel with
  | nil => cases fuel <;> rfl
  | cons b bs ih =>
    obtain ⟨fuel, rfl⟩ := Nat.exists_eq_add_one.2 (Nat.zero_lt_of_lt hfuel)
    obtain ⟨hmin, hlength, -⟩ := (h b (.head _)).header
    have hsame : slice (fmt.encode b ++ bs.flatMap fmt.encode) 8 4 = slice (fmt.encode b) 8 4 :=
      slice_eq_of_take_eq (take_append_of_le_length hmin) (by decide)
    have hsize : 12 + (ofBeInt (slice (fmt.encode b ++ bs.flatMap fmt.encode) 8 4)).toNat =
        (fmt.encode b).length := by
      rw [hsame]
      omega
    rw [flatMap_cons, decodeFrom, if_neg (by rw [length_append]; omega)]
    simp only [hsize]
    rw [if_neg (by rw [length_append]; omega), take_left, (h b (.head _)).decode_encode]
    rw [drop_left, ih (fun a ha => h a (.tail _ ha)) (Nat.le_of_succ_le_succ hfuel)]

end

/-! ## The returned batches -/

section
variable {fmt : WireFormat β} {log : TxnLog β} {fetchOffset : Nat} {highWatermark : Int}

theorem takeWhile_eq_filter {bs : List (TxnBatch β)} (hasc : Ascending bs) (offset : Int) :
    bs.takeWhile (·.baseOffset < offset) = bs.filter (·.baseOffset < offset) := by
  induction bs with
  | nil => rfl
  | cons b bs ih =>
    obtain ⟨hhead, hrest⟩ := pairwise_cons.1 hasc
    rcases Int.lt_or_le b.baseOffset offset with hlt | hge
    · rw [takeWhile_cons_of_pos (by simpa using hlt), filter_cons_of_pos
        (by simpa using hlt), ih hrest]
    rw [takeWhile_cons_of_neg (by simpa using hge), filter_cons_of_neg
      (by simpa using hge), filter_eq_nil_iff.2]
    intro c hc
    have hlast : b.lastOffset < c.baseOffset := hhead c hc
    have := b.baseOffset_le_lastOffset
    rw [decide_eq_true_iff]
    omega

theorem length_le_length_flatMap {bs : List (TxnBatch β)} (h : ∀ b ∈ bs, fmt.Carries b) :
    bs.length ≤ (bs.flatMap fmt.encode).length := by
  induction bs with
  | nil => exact le_refl _
  | cons b bs ih =>
    have hmin := (h b (.head _)).header.1
    have := ih fun a ha => h a (.tail _ ha)
    rw [flatMap_cons, length_append, length_cons]
    omega

/-- The returned batches are those that overlap the fetch, cut at the last stable offset. -/
theorem TxnLog.returned_eq (h : fetchOffset < highWatermark) :
    log.returned fetchOffset highWatermark =
      (log.batches.filter fun b =>
        (fetchOffset : Int) ≤ b.lastOffset ∧ b.baseOffset < highWatermark).takeWhile
          (·.baseOffset < (replay log.batches).lastStableOffset highWatermark) := by
  rw [takeWhile_eq_filter (log.ascending.filter _), List.filter_filter]
  refine filter_congr fun b _ => ?_
  rw [← Bool.decide_and, decide_eq_decide, TxnLog.Returned, TxnLog.readableEnd, Int.lt_min]
  exact ⟨fun hb => ⟨hb.2.2.1, hb.2.1, hb.2.2.2⟩, fun hb => ⟨h, hb.2.1, hb.1, hb.2.2⟩⟩

theorem servePartition_eq (hfmt : ∀ b ∈ log.batches, fmt.Carries b)
    (hsize : (fetchRawBytes fmt log.batches fetchOffset highWatermark).length < 2 ^ 63) :
    servePartition fmt (replay log.batches) log.batches fetchOffset highWatermark =
      some ⟨(log.returned fetchOffset highWatermark).flatMap fmt.encode,
        (replay log.batches).lastStableOffset highWatermark,
        (replay log.batches).abortedBelow highWatermark⟩ := by
  rw [servePartition]
  rw [fetchRawBytes] at hsize ⊢
  split at hsize
  case isFalse hge =>
    have hnil : log.returned fetchOffset highWatermark = [] :=
      filter_eq_nil_iff.2 fun b _ hb => hge (of_decide_eq_true hb).1
    rw [if_neg hge, hnil, if_neg fun h => h.2 rfl]
    rfl
  case isTrue hlt =>
  rw [if_pos hlt, TxnLog.returned_eq hlt]
  generalize hbs : log.batches.filter (fun b =>
      (fetchOffset : Int) ≤ b.lastOffset ∧ b.baseOffset < highWatermark) = bs at *
  have hcarries : ∀ b ∈ bs, fmt.Carries b := fun b hb => hfmt b (mem_filter.1 (hbs ▸ hb)).1
  have hbelow : ∀ b ∈ bs, b.baseOffset < highWatermark :=
    fun b hb => (of_decide_eq_true (mem_filter.1 (hbs ▸ hb)).2).2
  generalize hlso : (replay log.batches).lastStableOffset highWatermark = lso
  have hsplit : bs.flatMap fmt.encode = (bs.takeWhile (·.baseOffset < lso)).flatMap fmt.encode ++
      (bs.dropWhile (·.baseOffset < lso)).flatMap fmt.encode := by
    rw [← flatMap_append, takeWhile_append_dropWhile]
  split
  case isTrue hcut =>
    have hkeep : keepLenBelowOffset (bs.flatMap fmt.encode) lso =
        some ((bs.takeWhile (·.baseOffset < lso)).flatMap fmt.encode).length := by
      have hfuel := Nat.lt_succ_of_le (length_le_length_flatMap hcarries)
      have hkeep : keepLenFrom ([] ++ (bs.flatMap fmt.encode ++ [])) lso _ 0 = _ :=
        keepLenFrom_encode [] (fun b hb => (hcarries b hb).header) (.inl (by decide)) hfuel
          (by simpa using hsize)
      simpa [keepLenBelowOffset] using hkeep
    rw [hkeep, map_some, map_some]
    congr 1
    nth_rewrite 1 [hsplit]
    rw [take_left]
  case isFalse hwhole =>
    have hall : (bs.takeWhile (·.baseOffset < lso)).flatMap fmt.encode = bs.flatMap fmt.encode := by
      by_cases hnil : bs.flatMap fmt.encode = []
      · rw [hnil] at hsplit
        rw [hnil, (append_eq_nil_iff.1 hsplit.symm).1]
      have hge : highWatermark ≤ lso := not_lt.1 fun h => hwhole ⟨h, hnil⟩
      rw [takeWhile_eq_self_iff.2 fun b hb => ?_]
      have := hbelow b hb
      rw [decide_eq_true_iff]
      omega
    rw [hall]
    rfl

end

/-! ## The consumer's filter -/

/-- An aborted transaction of the producer starts at or before the batch's end and behind the
markers in front of it. -/
def Hidden (aborted : List AbortedTxn) (returned : List (TxnBatch β)) (b : TxnBatch β) : Prop :=
  ∃ e ∈ aborted, e.producerId = b.producerId ∧ e.firstOffset ≤ b.lastOffset ∧
    ∀ c ∈ returned, c.baseOffset < b.baseOffset →
      markerOf b.producerId c = some .abort → c.lastOffset < e.firstOffset
deriving Decidable

def delivered (aborted : List AbortedTxn) (returned : List (TxnBatch β)) (fetchOffset : Nat)
    (b : TxnBatch β) : List (LogRecord (TxnRecord β)) :=
  if b.isControl ∨ (b.isTransactional ∧ Hidden aborted returned b) then []
  else recordsFrom fetchOffset b

/-- What the consumer's state says behind the batches `pre`. -/
structure ConsumerInv (aborted : List AbortedTxn) (pre : List (TxnBatch β))
    (remaining : List AbortedTxn) (active : List Int) : Prop where
  remaining : ∀ e, e ∈ remaining ↔ e ∈ aborted ∧ ∀ c ∈ pre, c.lastOffset < e.firstOffset
  active : ∀ p, p ∈ active ↔ ∃ e ∈ aborted, e.producerId = p ∧
    (∃ c ∈ pre, e.firstOffset ≤ c.lastOffset) ∧
      ∀ c ∈ pre, markerOf p c = some .abort → c.lastOffset < e.firstOffset

section
variable {aborted remaining : List AbortedTxn} {pre bs : List (TxnBatch β)} {b : TxnBatch β}
  {active : List Int} {p : Int} {fetchOffset : Nat}

section
variable (h : ConsumerInv aborted pre remaining active)
include h

/-- The producers that are active when the filter looks at a batch. -/
theorem ConsumerInv.mem_activated (hpre : ∀ c ∈ pre, c.lastOffset < b.lastOffset) :
    p ∈ active ++ (remaining.filter (·.firstOffset ≤ b.lastOffset)).map (·.producerId) ↔
      ∃ e ∈ aborted, e.producerId = p ∧ e.firstOffset ≤ b.lastOffset ∧
        ∀ c ∈ pre, markerOf p c = some .abort → c.lastOffset < e.firstOffset := by
  rw [mem_append, h.active, List.mem_map]
  constructor
  · rintro (⟨e, he, hp, ⟨c, hc, hle⟩, hmarkers⟩ | ⟨e, he, hp⟩)
    · have := hpre c hc
      exact ⟨e, he, hp, by omega, hmarkers⟩
    · obtain ⟨he, hle⟩ := mem_filter.1 he
      obtain ⟨he, hbehind⟩ := (h.remaining e).1 he
      exact ⟨e, he, hp, of_decide_eq_true hle, fun c hc _ => hbehind c hc⟩
  · rintro ⟨e, he, hp, hle, hmarkers⟩
    by_cases hpassed : ∃ c ∈ pre, e.firstOffset ≤ c.lastOffset
    · exact .inl ⟨e, he, hp, hpassed, hmarkers⟩
    refine .inr ⟨e, mem_filter.2 ⟨(h.remaining e).2 ⟨he, fun c hc => ?_⟩, ?_⟩, hp⟩
    · exact not_le.1 fun hc' => hpassed ⟨c, hc, hc'⟩
    · exact decide_eq_true hle

theorem ConsumerInv.concat (hpre : ∀ c ∈ pre, c.lastOffset < b.lastOffset) :
    ConsumerInv aborted (pre ++ [b]) (remaining.filter (b.lastOffset < ·.firstOffset))
      (if b.marker = some .abort then
        (active ++ (remaining.filter (·.firstOffset ≤ b.lastOffset)).map (·.producerId)).filter
          (· ≠ b.producerId)
      else active ++ (remaining.filter (·.firstOffset ≤ b.lastOffset)).map (·.producerId)) := by
  constructor
  case remaining =>
    intro e
    rw [mem_filter, h.remaining, forall_mem_concat,
      decide_eq_true_iff, and_assoc]
  case active =>
    intro p
    -- a transaction that starts at or before some batch so far starts at or before this one
    have hpassed : ∀ e : AbortedTxn, (∃ c ∈ pre ++ [b], e.firstOffset ≤ c.lastOffset) ↔
        e.firstOffset ≤ b.lastOffset := by
      intro e
      refine ⟨?_, fun hle => ⟨b, mem_concat_self, hle⟩⟩
      rintro ⟨c, hc, hle⟩
      rcases mem_concat.1 hc with hc | rfl
      · have := hpre c hc
        omega
      · exact hle
    simp only [hpassed, forall_mem_concat]
    split
    case isTrue habort =>
      rw [mem_filter, h.mem_activated hpre, decide_eq_true_iff]
      constructor
      · rintro ⟨⟨e, he, hp, hle, hmarkers⟩, hne⟩
        refine ⟨e, he, hp, hle, hmarkers, fun hm => ?_⟩
        rw [markerOf, if_neg (Ne.symm hne)] at hm
        cases hm
      · rintro ⟨e, he, hp, hle, hmarkers, hlast⟩
        refine ⟨⟨e, he, hp, hle, hmarkers⟩, ?_⟩
        rintro rfl
        have := hlast ((markerOf_producerId b).trans habort)
        omega
    case isFalse habort =>
      rw [h.mem_activated hpre]
      constructor
      · rintro ⟨e, he, hp, hle, hmarkers⟩
        refine ⟨e, he, hp, hle, hmarkers, fun hm => ?_⟩
        rw [markerOf] at hm
        split at hm
        · exact absurd hm habort
        · cases hm
      · rintro ⟨e, he, hp, hle, hmarkers, -⟩
        exact ⟨e, he, hp, hle, hmarkers⟩

theorem consumeFrom_eq (hasc : Ascending (pre ++ bs)) :
    consumeFrom fetchOffset remaining active bs =
      bs.flatMap (delivered aborted (pre ++ bs) fetchOffset) := by
  induction bs generalizing pre remaining active with
  | nil => rfl
  | cons b bs ih =>
    have hpre : ∀ c ∈ pre, c.lastOffset < b.baseOffset :=
      fun c hc => (pairwise_append.1 hasc).2.2 c hc b (.head _)
    have hbehind : ∀ c ∈ bs, b.lastOffset < c.baseOffset :=
      fun c hc => (pairwise_cons.1 (pairwise_append.1 hasc).2.1).1 c hc
    have hle := b.baseOffset_le_lastOffset
    have hlast : ∀ c ∈ pre, c.lastOffset < b.lastOffset := fun c hc => by
      have := hpre c hc
      omega
    have hidden : Hidden aborted (pre ++ b :: bs) b ↔ b.producerId ∈
        active ++ (remaining.filter (·.firstOffset ≤ b.lastOffset)).map (·.producerId) := by
      rw [h.mem_activated hlast]
      refine exists_congr fun e => and_congr_right fun _ => and_congr_right fun _ =>
        and_congr_right fun _ => ⟨fun hm c hc => ?_, fun hm c hc hlt => ?_⟩
      · have := hpre c hc
        have := c.baseOffset_le_lastOffset
        exact hm c (mem_append_left _ hc) (by omega)
      · rcases mem_append.1 hc with hc | hc
        · exact hm c hc
        rcases mem_cons.1 hc with rfl | hc
        · omega
        · have := hbehind c hc
          omega
    have hrest := ih (h.concat hlast) (by rwa [append_assoc])
    rw [append_assoc] at hrest
    rw [consumeFrom, flatMap_cons, delivered]
    cases hcontrol : b.isControl with
    | true =>
      rw [hrest]
      rfl
    | false =>
    have hmarker : b.marker ≠ some .abort := by
      rw [marker, hcontrol]
      intro hm
      cases hm
    rw [if_neg hmarker] at hrest
    rw [hrest]
    simp only [hidden, Bool.false_eq_true, false_or]
    rfl

end

end

/-! ## The index and the returned batches -/

namespace TxnLog

abbrev Hides (log : TxnLog β) (fetchOffset : Nat) (highWatermark : Int) : TxnBatch β → Prop :=
  Hidden ((replay log.batches).abortedBelow highWatermark) (log.returned fetchOffset highWatermark)

/-- What the consumer delivers of one batch. -/
abbrev deliveredRecords (log : TxnLog β) (fetchOffset : Nat) (highWatermark : Int) :
    TxnBatch β → List (LogRecord (TxnRecord β)) :=
  delivered ((replay log.batches).abortedBelow highWatermark)
    (log.returned fetchOffset highWatermark) fetchOffset

section
variable {log : TxnLog β} {fetchOffset : Nat} {highWatermark : Int} {a b c : TxnBatch β}

theorem mem_returned : b ∈ log.returned fetchOffset highWatermark ↔
    b ∈ log.batches ∧ log.Returned fetchOffset highWatermark b := by
  rw [returned, mem_filter, decide_eq_true_iff]

section
variable (log : TxnLog β)

theorem lastOffset_lt (ha : a ∈ log.batches) (hb : b ∈ log.batches)
    (hlt : a.baseOffset < b.baseOffset) : a.lastOffset < b.baseOffset := by
  rcases log.ascending.eq_or_apart ha hb with rfl | hab | hba
  · omega
  · exact hab
  have hba : b.lastOffset < a.baseOffset := hba
  have := b.baseOffset_le_lastOffset
  omega

theorem eq_of_offset (ha : a ∈ log.batches) (hb : b ∈ log.batches)
    (hoa : a.baseOffset ≤ o ∧ o ≤ a.lastOffset) (hob : b.baseOffset ≤ o ∧ o ≤ b.lastOffset) :
    a = b := by
  rcases log.ascending.eq_or_apart ha hb with rfl | hab | hba
  · rfl
  · have hab : a.lastOffset < b.baseOffset := hab
    omega
  · have hba : b.lastOffset < a.baseOffset := hba
    omega

theorem tracks (hb : b ∈ log.batches) (hbd : b.IsTxnData) :
    Tracks b.producerId log.batches ((replay log.batches).producer b.producerId) :=
  tracks_replay log.ascending (log.producers b hb hbd)

theorem lastStableOffset_base (highWatermark : Int) :
    (replay log.batches).lastStableOffset highWatermark = highWatermark ∨
      ∃ u ∈ log.batches, u.baseOffset = (replay log.batches).lastStableOffset highWatermark := by
  rcases (replay log.batches).lastStableOffset_cases highWatermark with h | ⟨p, h⟩
  · exact .inl h
  right
  rcases Int.lt_or_le p 0 with hneg | hp
  · have hnone : (replay log.batches).ongoing.get? p = none :=
      congrArg ProducerTxns.opened (producer_replay_of_neg log.batches hneg)
    rw [hnone] at h
    cases h
  · obtain ⟨⟨u, hu, -, -, hbase, -⟩, -⟩ :=
      (tracks_replay log.ascending hp).undecided_of_opened _ h
    exact ⟨u, hu, hbase⟩

end

section
variable (h : log.Returned fetchOffset highWatermark b)
include h

/-- A returned batch ends before the readable end, unless it reaches the high watermark; and the
fetch starts before the readable end. -/
theorem Returned.below (hb : b ∈ log.batches) :
    (b.lastOffset < highWatermark → b.lastOffset < log.readableEnd highWatermark) ∧
      fetchOffset < log.readableEnd highWatermark := by
  obtain ⟨hlt, hle, hbase⟩ := h
  rw [readableEnd] at hbase ⊢
  rcases log.lastStableOffset_base highWatermark with heq | ⟨u, hu, heq⟩
  · omega
  · have := log.lastOffset_lt hb hu (by omega)
    omega

theorem Returned.decided (hb : b ∈ log.batches)
    (hbd : b.IsTxnData) : fate log.batches b ≠ none := by
  intro hnone
  obtain ⟨f, hf, hle⟩ := (log.tracks hb hbd).opened_of_undecided b hb hbd rfl hnone
  have := lastStableOffset_le hf highWatermark
  have := h.2.2
  rw [readableEnd] at this
  omega

/-- An aborted transaction that starts before a returned batch and behind the abort markers in front
of it hides the batch. -/
theorem Returned.hidden (hf : f ∈ ((replay log.batches).producer b.producerId).aborted) (hle : f ≤ b.baseOffset)
    (hmarkers : ∀ c ∈ log.returned fetchOffset highWatermark, c.baseOffset < b.baseOffset →
      markerOf b.producerId c = some .abort → c.lastOffset < f) :
    log.Hides fetchOffset highWatermark b := by
  have hbelow : b.baseOffset < highWatermark := lt_of_lt_of_le h.2.2 (min_le_right ..)
  have hupper : f < highWatermark := lt_of_le_of_lt hle hbelow
  refine ⟨⟨b.producerId, f⟩, mem_filter.2 ⟨mem_producer_aborted.1 hf, ?_⟩, rfl, ?_, hmarkers⟩
  · exact decide_eq_true hupper
  · exact le_trans hle b.baseOffset_le_lastOffset

theorem Returned.hidden_of_abort (hb : b ∈ log.batches) (hbd : b.IsTxnData) (habort : fate log.batches b = some .abort) :
    log.Hides fetchOffset highWatermark b := by
  obtain ⟨f, hf, hle, hmarkers⟩ := (log.tracks hb hbd).aborted_of_fate b hb hbd rfl habort
  exact h.hidden hf hle fun c hc hlt hm => hmarkers c (mem_returned.1 hc).1 hm hlt

end

end

end TxnLog

theorem exists_marker_between (hp : a.producerId = b.producerId) (hlt : a.baseOffset < b.baseOffset)
    (ha : fate l a = some x) (hb : fate l b ≠ some x) :
    ∃ m ∈ l, a.baseOffset < m.baseOffset ∧ m.baseOffset ≤ b.baseOffset ∧
      markerOf b.producerId m = some x := by
  obtain ⟨l₁, m, l₂, hsplit, hm, hnone⟩ := findSome?_eq_some_iff.1 ha
  have hmem : m ∈ l.filter (a.baseOffset < ·.baseOffset) := by
    rw [hsplit]
    exact mem_append_cons_self
  obtain ⟨hml, ham⟩ := mem_filter.1 hmem
  rw [hp] at hm hnone
  refine ⟨m, hml, of_decide_eq_true ham, not_lt.1 fun hbm => hb ?_, hm⟩
  -- the batches behind `b` are behind `a` too, so `m` is the first marker behind `b`
  have hbehind : l.filter (b.baseOffset < ·.baseOffset) =
      l₁.filter (b.baseOffset < ·.baseOffset) ++ m :: l₂.filter (b.baseOffset < ·.baseOffset) := by
    have hkeep : (m :: l₂).filter (b.baseOffset < ·.baseOffset) =
        m :: l₂.filter (b.baseOffset < ·.baseOffset) :=
      filter_cons_of_pos (decide_eq_true hbm)
    rw [← hkeep, ← filter_append, ← hsplit, List.filter_filter]
    refine filter_congr fun c _ => ?_
    rw [← Bool.decide_and, decide_eq_decide]
    exact ⟨fun hc => ⟨hc, lt_trans hlt hc⟩, And.left⟩
  rw [fate, hbehind]
  exact findSome?_eq_some_iff.2 ⟨_, m, _, rfl, hm, fun c hc => hnone c (mem_filter.1 hc).1⟩

namespace TxnLog

section
variable {log : TxnLog β} {fetchOffset : Nat} {highWatermark : Int} {b : TxnBatch β}

/-- A committed batch is dropped exactly when its producer was aborted before it and has no abort
marker in front of it in the range. -/
theorem Returned.hidden_iff (h : log.Returned fetchOffset highWatermark b) (hb : b ∈ log.batches)
    (hbd : b.IsTxnData) (hcommit : fate log.batches b = some .commit) :
    log.Hides fetchOffset highWatermark b ↔
      (∃ a ∈ log.batches, a.IsTxnData ∧ a.producerId = b.producerId ∧
        fate log.batches a = some .abort ∧ a.baseOffset < b.baseOffset) ∧
      ∀ c ∈ log.batches, fetchOffset ≤ c.lastOffset → c.baseOffset < b.baseOffset →
        markerOf b.producerId c ≠ some .abort := by
  have hle := b.baseOffset_le_lastOffset
  have hreturned : ∀ c ∈ log.batches, fetchOffset ≤ c.lastOffset → c.baseOffset < b.baseOffset →
      c ∈ log.returned fetchOffset highWatermark :=
    fun c hc hfetch hlt => mem_returned.2 ⟨hc, h.1, hfetch, lt_trans hlt h.2.2⟩
  constructor
  · rintro ⟨e, he, hp, hfirst, hmarkers⟩
    obtain ⟨he, -⟩ := mem_filter.1 he
    have hf : e.firstOffset ∈ ((replay log.batches).producer b.producerId).aborted :=
      mem_producer_aborted.2 (hp ▸ he)
    obtain ⟨a, ha, had, hap, hbase, habort⟩ := (log.tracks hb hbd).fate_of_aborted _ hf
    have hlt : a.baseOffset < b.baseOffset := by
      rcases log.ascending.eq_or_apart ha hb with rfl | hab | hba
      · rw [hcommit] at habort
        cases habort
      · have hab : a.lastOffset < b.baseOffset := hab
        have := a.baseOffset_le_lastOffset
        omega
      · have hba : b.lastOffset < a.baseOffset := hba
        omega
    refine ⟨⟨a, ha, had, hap, habort, hlt⟩, fun c hc hfetch hcb hm => ?_⟩
    -- the marker that aborted `a` lies behind `c`, so it is returned too
    have hca := hmarkers c (hreturned c hc hfetch hcb) hcb hm
    obtain ⟨m, hml, ham, hmb, hm'⟩ := exists_marker_between hap hlt habort
      (by rw [hcommit]; exact nofun)
    have := m.baseOffset_le_lastOffset
    have hmb : m.baseOffset < b.baseOffset := by
      rcases Int.lt_or_eq_of_le hmb with hmb | hmb
      · exact hmb
      obtain rfl := log.eq_of_offset hml hb ⟨le_of_eq rfl, this⟩ ⟨by omega, by omega⟩
      rw [markerOf_producerId, marker_eq_none hbd] at hm'
      cases hm'
    have := hmarkers m (hreturned m hml (by omega) hmb) hmb hm'
    omega
  · rintro ⟨⟨a, ha, had, hap, habort, hlt⟩, hnone⟩
    obtain ⟨f, hf, hfa, -⟩ := (log.tracks hb hbd).aborted_of_fate a ha had hap habort
    refine h.hidden hf (by omega) fun c hc hcb hm => ?_
    obtain ⟨hc, hret⟩ := mem_returned.1 hc
    exact absurd hm (hnone c hc hret.2.1 hcb)

/-! ## Delivered and committed records -/

/-- What should be delivered of one batch. -/
def stableRecords (log : TxnLog β) (fetchOffset : Nat) (bound : Int) (b : TxnBatch β) :
    List (LogRecord (TxnRecord β)) :=
  if b.Stable log.batches then
    b.logRecords.filter fun r => fetchOffset ≤ r.offset ∧ r.offset < bound
  else []

theorem committedRecords_eq (log : TxnLog β) (fetchOffset : Nat) (highWatermark : Int) :
    committedRecords log.batches fetchOffset (log.readableEnd highWatermark) =
      (log.returned fetchOffset highWatermark).flatMap
        (log.stableRecords fetchOffset (log.readableEnd highWatermark)) := by
  have hnil : ∀ b, ¬ log.Returned fetchOffset highWatermark b →
      log.stableRecords fetchOffset (log.readableEnd highWatermark) b = [] := by
    intro b hb
    rw [stableRecords]
    split
    case isFalse => rfl
    case isTrue =>
    refine filter_eq_nil_iff.2 fun r hr hrange => hb ?_
    obtain ⟨hfetch, hbound⟩ := of_decide_eq_true hrange
    obtain ⟨-, hbase, hlast⟩ := Batch.mem_logRecords hr
    have : log.readableEnd highWatermark ≤ highWatermark := min_le_right ..
    exact ⟨by omega, by omega, by omega⟩
  have hflat : ∀ l : List (TxnBatch β), l.flatMap
      (log.stableRecords fetchOffset (log.readableEnd highWatermark)) =
        (l.filter (log.Returned fetchOffset highWatermark)).flatMap
          (log.stableRecords fetchOffset (log.readableEnd highWatermark)) := by
    intro l
    induction l with
    | nil => rfl
    | cons b l ih =>
      rw [flatMap_cons, filter_cons]
      split
      case isTrue => rw [ih, flatMap_cons]
      case isFalse hb => rw [hnil b (by simpa using hb), nil_append, ih]
  exact hflat log.batches

theorem consume_servePartition {fmt : WireFormat β} (hfmt : ∀ b ∈ log.batches, fmt.Carries b)
    (hsize : (fetchRawBytes fmt log.batches fetchOffset highWatermark).length < 2 ^ 63) :
    (servePartition fmt (replay log.batches) log.batches fetchOffset highWatermark).map
        (consume fmt fetchOffset) =
      some ((log.returned fetchOffset highWatermark).flatMap
        (log.deliveredRecords fetchOffset highWatermark)) := by
  have hcarries : ∀ b ∈ log.returned fetchOffset highWatermark, fmt.Carries b :=
    fun b hb => hfmt b (mem_returned.1 hb).1
  have hinit : ConsumerInv ((replay log.batches).abortedBelow highWatermark)
      ([] : List (TxnBatch β)) ((replay log.batches).abortedBelow highWatermark) [] := by
    constructor
    · exact fun e => (and_iff_left fun c hc => nomatch hc).symm
    · exact fun p => iff_of_false (fun hp => nomatch hp) fun ⟨_, _, _, ⟨_, hc, _⟩, _⟩ => nomatch hc
  rw [servePartition_eq hfmt hsize, map_some, consume,
    decodeFrom_encode hcarries (length_le_length_flatMap hcarries)]
  exact congrArg some (consumeFrom_eq hinit (log.ascending.filter _))

/-- A returned stable batch is delivered exactly, unless it is hidden or reaches the high watermark.
-/
theorem Returned.delivered_eq (h : log.Returned fetchOffset highWatermark b) (hb : b ∈ log.batches)
    (hexact : log.ServedExactly fetchOffset highWatermark) :
    log.deliveredRecords fetchOffset highWatermark b =
      log.stableRecords fetchOffset (log.readableEnd highWatermark) b := by
  have hstable : b.Stable log.batches → recordsFrom fetchOffset b =
      log.stableRecords fetchOffset (log.readableEnd highWatermark) b := by
    intro hs
    have hlast := (h.below hb).1 (hexact.whole b hb h hs)
    rw [stableRecords, if_pos hs]
    refine filter_congr fun r hr => ?_
    have := (Batch.mem_logRecords hr).2.2
    rw [decide_eq_decide]
    exact ⟨fun hfetch => ⟨hfetch, by omega⟩, And.left⟩
  rw [deliveredRecords, delivered]
  cases hcontrol : b.isControl with
  | true =>
    have hs : ¬ b.Stable log.batches := fun hs => absurd hs.1 (by rw [hcontrol]; exact nofun)
    rw [if_pos (.inl rfl), stableRecords, if_neg hs]
  | false =>
  cases htxn : b.isTransactional with
  | false =>
    exact hstable ⟨hcontrol, fun h => nomatch htxn.symm.trans h⟩
  | true =>
  have hbd : b.IsTxnData := ⟨htxn, hcontrol⟩
  cases hfate : fate log.batches b with
  | none => exact absurd hfate (h.decided hb hbd)
  | some m =>
  cases m with
  | abort =>
    have hs : ¬ b.Stable log.batches := fun hs => absurd (hs.2 htxn) (by rw [hfate]; exact nofun)
    rw [if_pos (.inr ⟨rfl, h.hidden_of_abort hb hbd hfate⟩), stableRecords, if_neg hs]
  | commit =>
  have hvisible : ¬ log.Hides fetchOffset highWatermark b := by
    rw [h.hidden_iff hb hbd hfate]
    rintro ⟨⟨a, ha, had, hap, habort, hlt⟩, hnone⟩
    obtain ⟨c, hc, hfetch, hcb, hm⟩ := hexact.marked b hb h hbd hfate a ha had hap habort hlt
    exact hnone c hc hfetch hcb hm
  rw [if_neg (by simpa using hvisible)]
  exact hstable ⟨hcontrol, fun _ => hfate⟩

/-- No stable batch is hidden: it has a record in the range, and no other batch has one at that
offset. -/
theorem Returned.not_hidden (h : log.Returned fetchOffset highWatermark b) (hb : b ∈ log.batches)
    (hs : b.Stable log.batches) (hbd : b.IsTxnData)
    (heq : (log.returned fetchOffset highWatermark).flatMap
        (log.deliveredRecords fetchOffset highWatermark) =
      (log.returned fetchOffset highWatermark).flatMap
        (log.stableRecords fetchOffset (log.readableEnd highWatermark))) :
    ¬ log.Hides fetchOffset highWatermark b := by
  intro hidden
  have hle := b.baseOffset_le_lastOffset
  have hstart := (h.below hb).2
  obtain ⟨hlt, hfetch, hbase⟩ := h
  obtain ⟨r, hr, ho⟩ : ∃ r ∈ b.logRecords, r.offset = max (fetchOffset : Int) b.baseOffset :=
    Batch.exists_offset (le_max_right ..) (by omega)
  have hmem : r ∈ (log.returned fetchOffset highWatermark).flatMap
      (log.stableRecords fetchOffset (log.readableEnd highWatermark)) := by
    refine mem_flatMap.2 ⟨b, mem_returned.2 ⟨hb, hlt, hfetch, hbase⟩, ?_⟩
    rw [stableRecords, if_pos hs]
    exact mem_filter.2 ⟨hr, decide_eq_true ⟨by omega, by omega⟩⟩
  rw [← heq] at hmem
  obtain ⟨c, hc, hrc⟩ := mem_flatMap.1 hmem
  rw [deliveredRecords, delivered] at hrc
  split at hrc
  case isTrue => cases hrc
  case isFalse hvisible =>
  obtain ⟨hrc, -⟩ := mem_filter.1 hrc
  obtain rfl := log.eq_of_offset (mem_returned.1 hc).1 hb (Batch.mem_logRecords hrc).2
    (Batch.mem_logRecords hr).2
  exact hvisible (.inr ⟨hbd.1, hidden⟩)

/-- A `read_committed` fetch delivers exactly the committed and non-transactional records of the
readable range if and only if it is `ServedExactly`. -/
theorem readCommitted_exact_iff (fmt : WireFormat β) (log : TxnLog β) (fetchOffset : Nat)
    (highWatermark : Int) (hfmt : ∀ b ∈ log.batches, fmt.Carries b)
    (hsize : (fetchRawBytes fmt log.batches fetchOffset highWatermark).length < 2 ^ 63) :
    (servePartition fmt (replay log.batches) log.batches fetchOffset highWatermark).map
        (consume fmt fetchOffset) =
      some (committedRecords log.batches fetchOffset (log.readableEnd highWatermark)) ↔
    log.ServedExactly fetchOffset highWatermark := by
  rw [consume_servePartition hfmt hsize, committedRecords_eq, some.injEq]
  constructor
  · intro heq
    constructor
    case whole =>
      intro b hb hret hs
      obtain ⟨r, hr, ho, -⟩ := b.exists_last
      have hfetch := hret.2.1
      have hdelivered : r ∈ (log.returned fetchOffset highWatermark).flatMap
          (log.deliveredRecords fetchOffset highWatermark) := by
        refine mem_flatMap.2 ⟨b, mem_returned.2 ⟨hb, hret⟩, ?_⟩
        have hvisible : ¬ (b.isControl = true ∨ (b.isTransactional = true ∧
            log.Hides fetchOffset highWatermark b)) := by
          rintro (hcontrol | ⟨htxn, hidden⟩)
          · rw [hs.1] at hcontrol
            cases hcontrol
          · exact hret.not_hidden hb hs ⟨htxn, hs.1⟩ heq hidden
        rw [deliveredRecords, delivered, if_neg hvisible]
        exact mem_filter.2 ⟨hr, decide_eq_true (by omega)⟩
      rw [heq] at hdelivered
      obtain ⟨c, -, hrc⟩ := mem_flatMap.1 hdelivered
      rw [stableRecords] at hrc
      split at hrc
      case isTrue =>
        obtain ⟨-, hbound⟩ := of_decide_eq_true (mem_filter.1 hrc).2
        have : log.readableEnd highWatermark ≤ highWatermark := min_le_right ..
        omega
      case isFalse => cases hrc
    case marked =>
      intro b hb hret hbd hcommit a ha had hap habort hlt
      have hvisible := hret.not_hidden hb ⟨hbd.2, fun _ => hcommit⟩ hbd heq
      rw [hret.hidden_iff hb hbd hcommit] at hvisible
      by_contra hnone
      refine hvisible ⟨⟨a, ha, had, hap, habort, hlt⟩, fun c hc hfetch hcb hm => hnone ?_⟩
      exact ⟨c, hc, hfetch, hcb, hm⟩
  · intro hexact
    refine congrArg List.flatten (map_congr_left fun b hb => ?_)
    obtain ⟨hb, hret⟩ := mem_returned.1 hb
    exact hret.delivered_eq hb hexact

end

end TxnLog

/-! ## An abort before the fetch offset

One producer: a transaction at offset 0 that is aborted at 1, and one at offset 2 that is committed
at 3.
-/

namespace ReadCommittedFixture

def batch (base : Int) (isControl : Bool) (key : Option (List UInt8)) : TxnBatch Unit :=
  ⟨.single base 0 ⟨key, ()⟩, 7, 0, base, true, isControl⟩

def log : TxnLog Unit where
  batches := [batch 0 false none, batch 1 true (some [0, 0, 0, 0]), batch 2 false none,
    batch 3 true (some [0, 0, 0, 1])]
  ascending := by decide
  producers := by decide

/-- The shortest batches the broker accepts, told apart by their base offset. -/
def format : WireFormat Unit where
  encode b := beInt 8 b.baseOffset ++ (beInt 4 9 ++ List.replicate 9 0)
  decode bytes := log.batches.find? (·.baseOffset = ofBeInt (slice bytes 0 8))

theorem carries : ∀ b ∈ log.batches, format.Carries b := by
  have hfits : ∀ b ∈ log.batches, Fits 8 b.baseOffset := by decide
  have hdecode : ∀ b ∈ log.batches, format.decode (format.encode b) = some b := by decide
  exact fun b hb => ⟨⟨List.replicate 9 0, rfl, by decide, by decide⟩, hfits b hb, hdecode b hb⟩

end ReadCommittedFixture

section
open ReadCommittedFixture

/-- A fetch from offset 2 drops the committed record there: the aborted transaction of offset 0 is
reported, its marker is not. -/
theorem committed_record_dropped_after_abort :
    ¬ ∀ (fmt : WireFormat Unit) (log : TxnLog Unit) (fetchOffset : Nat) (highWatermark : Int),
      (∀ b ∈ log.batches, fmt.Carries b) →
      (fetchRawBytes fmt log.batches fetchOffset highWatermark).length < 2 ^ 63 →
      (servePartition fmt (replay log.batches) log.batches fetchOffset highWatermark).map
          (consume fmt fetchOffset) =
        some (committedRecords log.batches fetchOffset (log.readableEnd highWatermark)) := by
  intro h
  exact absurd (h format log 2 4 carries (by decide)) (by decide +kernel)

/-- A fetch from offset 0 delivers the record at 2 and nothing else. -/
theorem readCommitted_exact_from_start :
    (∀ b ∈ log.batches, format.Carries b) ∧
    (fetchRawBytes format log.batches 0 4).length < 2 ^ 63 ∧
    (servePartition format (replay log.batches) log.batches 0 4).map (consume format 0) =
      some (committedRecords log.batches 0 (log.readableEnd 4)) := by
  have hsize : (fetchRawBytes format log.batches 0 4).length < 2 ^ 63 := by decide
  have hexact : log.ServedExactly 0 4 := ⟨by decide +kernel, by decide +kernel⟩
  exact ⟨carries, hsize, (TxnLog.readCommitted_exact_iff format log 0 4 carries hsize).2 hexact⟩

end

end ChronikStream
